import LibQuo.Bitmap.HexText

/-!
What `hwloc_bitmap_sscanf` does with any text at all: when it stays within the words of the
bitmap and its assertion holds, and when what it reads is what the text says.
-/

namespace LibQuo.Bitmap
open WordSet CText

/-- Two bitmaps that may differ only in their first `k` words. -/
structure AgreeFrom (k : Nat) (s t : Bitmap) : Prop where
  length : s.ulongs.length = t.ulongs.length
  allocated : s.ulongsAllocated = t.ulongsAllocated
  infinite : s.infinite = t.infinite
  words : ∀ i, k ≤ i → s.ulongs[i]? = t.ulongs[i]?

variable {s t dst : Bitmap} {k : Nat} {mem : Bool}

theorem AgreeFrom.refl (k : Nat) (s : Bitmap) : AgreeFrom k s s :=
  ⟨rfl, rfl, rfl, fun _ _ => rfl⟩

/-- The same word is written to both. -/
theorem AgreeFrom.put (h : AgreeFrom (k + 1) s t) (hk : k < s.ulongs.length) (v : Ulong) :
    ∃ s' t', s.putUlong k v = .ok s' ∧ t.putUlong k v = .ok t' ∧
      s'.ulongs.length = s.ulongs.length ∧ AgreeFrom k s' t' := by
  have hk' : k < t.ulongs.length := h.length ▸ hk
  refine ⟨_, _, if_pos hk, if_pos hk', List.length_mapIdx, ?_, h.allocated, h.infinite, ?_⟩
  · simp only [modify, List.length_mapIdx]
    exact h.length
  · intro i hi
    simp only [modify, List.getElem?_mapIdx]
    by_cases hik : i = k
    · rw [hik, List.getElem?_eq_getElem hk, List.getElem?_eq_getElem hk']
      simp
    · rw [h.words i (by omega)]

/-- The words that are complete are written, the same for two bitmaps. -/
theorem AgreeFrom.turn {count : Nat} (h : AgreeFrom ((count + 2) / 2) s t)
    (hlen : (count + 2) / 2 ≤ s.ulongs.length) (v : Ulong) :
    ∃ s' t', (if count % 2 = 0 then s.putUlong (count / 2) v else pure s) = .ok s' ∧
      (if count % 2 = 0 then t.putUlong (count / 2) v else pure t) = .ok t' ∧
      s'.ulongs.length = s.ulongs.length ∧ AgreeFrom ((count + 1) / 2) s' t' := by
  by_cases heven : count % 2 = 0
  · have hplace : (count + 2) / 2 = count / 2 + 1 := by omega
    have hplace' : (count + 1) / 2 = count / 2 := by omega
    rw [hplace] at h
    rw [hplace', if_pos heven, if_pos heven]
    exact h.put (by omega) v
  · have hplace : (count + 2) / 2 = (count + 1) / 2 := by omega
    rw [hplace] at h
    rw [if_neg heven, if_neg heven]
    exact ⟨s, t, rfl, rfl, rfl, h⟩

/-- What a call did: it returned, a text that it did not accept left nothing in the bitmap,
or the bitmap as it was; and where `sound` holds, what was in the words does not matter. -/
def Settles (mem : Bool) (dst : Bitmap) (sound : Prop) (r r' : Result (Bool × Bitmap)) : Prop :=
  ∃ success t, r = .ok (success, t) ∧ (success = false → t.cpus = ∅ ∨ mem = false ∧ t = dst) ∧
    (success = false ∨ sound → r' = r)

/-- A first field that is empty is not counted, and the assertion fails on the last one. -/
example : sscanf true (fun _ => 0#64) alloc [',', '1'] = .error .assertFailed := rfl

end LibQuo.Bitmap
