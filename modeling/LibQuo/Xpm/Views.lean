import LibQuo.Lib.Tiling
import LibQuo.Xpm.Protocol

/-!
The arithmetic of the views. Sums of `size_t` wrap; where the exact total does not,
the views are the tiles of the segment.
-/

namespace LibQuo.Xpm
open CMem Tiling

/-- The sizes as exact integers. -/
def exact (sizes : List UInt64) : List Nat := sizes.map UInt64.toNat

@[simp] theorem length_exact (sizes : List UInt64) : (exact sizes).length = sizes.length := by
  simp [exact]

/-- A loop sums the sizes it runs over, up to the wrap. -/
theorem sumOver_spec {sizes : List UInt64} {i j : Nat} (hij : i ≤ j) (hj : j ≤ sizes.length) :
    ∃ v, sumOver sizes (intRange i j) = .ok v ∧
      v.toNat = extent (exact sizes) i j % 2 ^ 64 := by
  induction j, hij using Nat.le_induction with
  | base => exact ⟨0, by rw [intRange_self]; rfl, by simp [extent]⟩
  | succ j hij ih =>
    obtain ⟨v, hv, hval⟩ := ih (Nat.le_of_succ_le hj)
    have hload : (loadInt sizes (j : Int) : Except (Halt Int) UInt64) = .ok sizes[j] :=
      loadInt_natCast hj
    refine ⟨v + sizes[j], ?_, ?_⟩
    · rw [Nat.cast_succ, intRange_succ hij]
      simp only [sumOver, List.foldlM_append, List.foldlM_cons, List.foldlM_nil] at hv ⊢
      rw [hv, ok_bind, hload]
      rfl
    · have hj' : j < (exact sizes).length := by simpa using hj
      have hget : (exact sizes)[j] = sizes[j].toNat := by simp [exact]
      rw [UInt64.toNat_add, hval, extent_succ _ hij hj', hget, Nat.mod_add_mod]

/-- The total, up to the wrap. -/
theorem rangeSum_total {xpm : Context} {n : Nat} (hn : xpm.localSizes.length = n) :
    ∃ v, rangeSum xpm 0 ((n : Int) - 1) = .ok v ∧
      v.toNat = (exact xpm.localSizes).sum % 2 ^ 64 := by
  obtain ⟨v, hv, hval⟩ := sumOver_spec (Nat.zero_le n) hn.ge
  have hlen : (exact xpm.localSizes).length = n := by rw [length_exact, hn]
  refine ⟨v, ?_, ?_⟩
  · rw [rangeSum, Int.sub_add_cancel]
    exact hv
  · rw [hval, extent, ← hlen, offset_length, offset_zero, Nat.sub_zero]

/-- A view begins where its first piece does and is as long as its pieces, up to the wrap. -/
theorem viewByQidRange_spec (xpm : Context) {i j : Nat} (hij : i ≤ j)
    (hj : j < xpm.localSizes.length) :
    ∃ v, viewByQidRange xpm i j = .ok v ∧ v.base.store = xpm.qsmSegment.segBasep ∧
      v.base.offset.toNat = offset (exact xpm.localSizes) i % 2 ^ 64 ∧
      v.extent.toNat = extent (exact xpm.localSizes) i (j + 1) % 2 ^ 64 := by
  obtain ⟨b, hb, hbase⟩ := sumOver_spec (Nat.zero_le i) (hij.trans hj.le)
  obtain ⟨e, he, hext⟩ := sumOver_spec (hij.trans (Nat.le_succ j)) hj
  refine ⟨⟨⟨xpm.qsmSegment.segBasep, b⟩, e⟩, ?_, rfl, ?_, hext⟩
  · rw [Nat.cast_succ] at he
    simp only [Nat.cast_zero] at hb
    simp only [viewByQidRange, baseOffset, rangeSum, hb, he]
    rfl
  · rw [hbase, extent, offset_zero, Nat.sub_zero]

/-- Where the exact total does not wrap, nothing does. -/
theorem viewByQidRange_exact {xpm : Context} (hexact : (exact xpm.localSizes).sum < 2 ^ 64)
    {i j : Nat} (hij : i ≤ j) (hj : j < xpm.localSizes.length) :
    ∃ v, viewByQidRange xpm i j = .ok v ∧ v.base.store = xpm.qsmSegment.segBasep ∧
      v.base.offset.toNat = offset (exact xpm.localSizes) i ∧
      v.extent.toNat = extent (exact xpm.localSizes) i (j + 1) := by
  have hle (k : Nat) (hk : k ≤ xpm.localSizes.length) :
      offset (exact xpm.localSizes) k < 2 ^ 64 :=
    (offset_le_sum _ (by simpa using hk)).trans_lt hexact
  have hbegin := hle i (hij.trans hj.le)
  have hend : extent (exact xpm.localSizes) i (j + 1) < 2 ^ 64 :=
    (Nat.sub_le _ _).trans_lt (hle (j + 1) hj)
  have hview := viewByQidRange_spec xpm hij hj
  rwa [Nat.mod_eq_of_lt hbegin, Nat.mod_eq_of_lt hend] at hview

end LibQuo.Xpm
