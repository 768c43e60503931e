import Mathlib.Data.Finset.Sort
import LibQuo.Lib.CMem
import LibQuo.Lib.SortedMeet
import LibQuo.Codes

/-!
`quo-set.c`: the values that occur in at least two of a family of sets. The
sets are arrays that must be strictly increasing; the result is read off a
table indexed by value, which the pairwise merges fill.
-/

namespace LibQuo.SetIntersection
open CMem SortedMeet

inductive Site
  | bigHtab
  | res
  deriving DecidableEq, Repr

/-- The elements of one set from some element on: `cur` is the one before
(`none` at element 0), `gmax` is `global_max` so far. -/
def checkElems (cur : Option Int) (gmax : Int) : List Int → Except (Halt Rc) Int
  | [] => .ok gmax
  | x :: xs =>
      if cur.any (· ≥ x) then .error (.code .errInvldArg)
      else if x < 0 then .error (.code .errInvldArg)
      else checkElems (some x) (if gmax < x then x else gmax) xs

def checkSets (gmax : Int) : List (List Int) → Except (Halt Rc) Int
  | [] => .ok gmax
  | s :: ss => do
      let gmax ← checkElems none gmax s
      checkSets gmax ss

/-- `big_htab` and `ilen`. -/
structure Table where
  htab : List Int
  ilen : Nat
  deriving DecidableEq, Repr

/-- `while (i < len(s) && s[i] < t[j]) ++i;` -/
def advance (s t : List Int) (j : Nat) : Nat → Nat → Except (Halt Rc) Nat
  | 0, _ => .error (.fault .noFuel)
  | fuel + 1, i =>
      if i < s.length then do
        let x ← load s i
        let y ← load t j
        if x < y then advance s t j fuel (i + 1) else .ok i
      else .ok i

/-- The entry made when the two heads agree. -/
def mark (x : Int) (t : Table) : Except (Halt Rc) Table := do
  let cell ← loadInt t.htab x
  if cell = -1 then do
    let htab ← storeInt t.htab x x
    .ok ⟨htab, t.ilen + 1⟩
  else .ok t

/-- The nested `while` loops over `sets[seta]` and `sets[setb]`. -/
def mergeLoop (a b : List Int) : Nat → Nat → Nat → Table → Except (Halt Rc) Table
  | 0, _, _, _ => .error (.fault .noFuel)
  | fuel + 1, i, j, t =>
      if i < a.length ∧ j < b.length then
        if a.length = 0 ∨ b.length = 0 then .ok t
        else do
          let i ← advance a b j (a.length + 1) i
          if i = a.length then .ok t
          else do
            let j ← advance b a i (b.length + 1) j
            if j = b.length then .ok t
            else do
              let x ← load a i
              let y ← load b j
              let t ← if x = y then mark x t else .ok t
              mergeLoop a b fuel (i + 1) (j + 1) t
      else .ok t

/-- One turn of the loop over `setb`. -/
def mergePair (sets : List (List Int)) (seta : Nat) (t : Table) (setb : Nat) :
    Except (Halt Rc) Table :=
  if seta = setb then .ok t
  else do
    let a ← load sets seta
    let b ← load sets setb
    mergeLoop a b (a.length + b.length + 1) 0 0 t

/-- The loops over `seta` and `setb`. -/
def mergeAll (sets : List (List Int)) (t : Table) : Except (Halt Rc) Table :=
  (List.range sets.length).foldlM
    (fun t seta => (List.range sets.length).foldlM (mergePair sets seta) t) t

/-- `for (i = 0, j = 0; i < global_max + 1; ++i)`, the loop that fills `res`. -/
def fillRes (htab : List Int) : Nat → Nat → Nat → List Int → Except (Halt Rc) (List Int)
  | 0, _, _, res => .ok res
  | k + 1, i, j, res => do
      let cell ← load htab i
      if cell ≠ -1 then do
        let res ← store res j cell
        fillRes htab k (i + 1) (j + 1) res
      else fillRes htab k (i + 1) j res

/-- `quo_set_get_k_set_intersection`: `res`, whose length is `res_len`. -/
def getKSetIntersection (malloc : Site → Bool) (sets : List (List Int)) :
    Except (Halt Rc) (List Int) :=
  if sets.length = 0 then .ok []
  else do
    let gmax ← checkSets (-1) sets
    if malloc .bigHtab = false then .error (.code .errOor)
    else do
      let t ← mergeAll sets ⟨List.replicate (gmax + 1).toNat (-1), 0⟩
      if t.ilen = 0 then .ok []
      else if malloc .res = false then .error (.code .errOor)
      else fillRes t.htab (gmax + 1).toNat 0 0 (List.replicate t.ilen 0)

/-- `*res`, which may be null, and `*res_len`. -/
structure Out where
  res : Option (List Int)
  resLen : Int
  deriving DecidableEq, Repr

/-- A call, with what it leaves in its out-parameters: both are cleared first, and set only
if there is a shared value. -/
def call (malloc : Site → Bool) (sets : List (List Int)) : Except (Halt Rc) Unit × Out :=
  match getKSetIntersection malloc sets with
  | .error e => (.error e, ⟨none, 0⟩)
  | .ok [] => (.ok (), ⟨none, 0⟩)
  | .ok (v :: vs) => (.ok (), ⟨some (v :: vs), (v :: vs).length⟩)

/-- A table of size `m` whose taken cells are the values in `K`; `-1` marks a
free cell. -/
def htabOf (m : Nat) (K : Finset Int) : List Int :=
  (List.range m).map fun v : Nat => if (v : Int) ∈ K then (v : Int) else -1

@[simp] theorem htabOf_length (m : Nat) (K : Finset Int) : (htabOf m K).length = m := by
  simp [htabOf]

theorem htabOf_empty (m : Nat) : htabOf m ∅ = List.replicate m (-1) := by
  simp [htabOf, List.map_const']

theorem load_htabOf {m i : Nat} (K : Finset Int) (h : i < m) :
    (load (htabOf m K) i : Except (Halt Rc) Int) =
      .ok (if (i : Int) ∈ K then (i : Int) else -1) := by
  rw [load_of_lt (by simpa using h)]
  simp [htabOf]

theorem loadInt_htabOf {m : Nat} {x : Int} (K : Finset Int) (h₀ : 0 ≤ x) (h : x < m) :
    (loadInt (htabOf m K) x : Except (Halt Rc) Int) = .ok (if x ∈ K then x else -1) := by
  obtain ⟨v, rfl⟩ := Int.eq_ofNat_of_zero_le h₀
  rw [loadInt, if_neg (by omega)]
  exact load_htabOf K (by simpa using h)

theorem storeInt_htabOf {m : Nat} {x : Int} (K : Finset Int) (h₀ : 0 ≤ x) (h : x < m) :
    (storeInt (htabOf m K) x x : Except (Halt Rc) (List Int)) = .ok (htabOf m (insert x K)) := by
  obtain ⟨v, rfl⟩ := Int.eq_ofNat_of_zero_le h₀
  have hv : v < (htabOf m K).length := by simp; omega
  rw [storeInt_natCast hv]
  congr 1
  apply List.ext_getElem
  · simp
  · intro i h₁ h₂
    by_cases hi : v = i
    · subst hi
      simp [htabOf]
    · have hne : ¬ i = v := fun h => hi h.symm
      simp [htabOf, hi, hne]

/-- The state of the merge that has recorded exactly the values in `K`. -/
def Table.of (m : Nat) (K : Finset Int) : Table := ⟨htabOf m K, K.card⟩

theorem mark_of {m : Nat} {K : Finset Int} {x : Int} (h₀ : 0 ≤ x) (h : x < m) :
    mark x (Table.of m K) = .ok (Table.of m (insert x K)) := by
  unfold mark Table.of
  rw [loadInt_htabOf K h₀ h, ok_bind, storeInt_htabOf K h₀ h]
  by_cases hK : x ∈ K
  · rw [if_pos hK, if_neg (by omega), Finset.insert_eq_of_mem hK]
  · rw [if_neg hK, if_pos rfl, ok_bind, Finset.card_insert_of_notMem hK]

theorem advance_spec {s t : List Int} {j i : Nat} (fuel : Nat) (hj : j < t.length)
    (hi : i ≤ s.length) (hf : s.length < fuel + i) :
    ∃ i', advance s t j fuel i = .ok i' ∧ i ≤ i' ∧ i' ≤ s.length ∧
      s.drop i' = (s.drop i).dropWhile (· < t[j]) := by
  induction fuel generalizing i with
  | zero => omega
  | succ fuel ih =>
    unfold advance
    by_cases h : i < s.length
    · rw [if_pos h, load_of_lt h, load_of_lt hj]
      simp only [ok_bind]
      rw [List.drop_eq_getElem_cons h]
      by_cases hlt : s[i] < t[j]
      · obtain ⟨i', he, hle, hle', hd⟩ := ih (i := i + 1) h (by omega)
        refine ⟨i', by rw [if_pos hlt, he], by omega, hle', ?_⟩
        rw [hd, List.dropWhile_cons, if_pos (by simpa using hlt)]
      · refine ⟨i, by rw [if_neg hlt], le_rfl, hi, ?_⟩
        rw [List.dropWhile_cons, if_neg (by simpa using hlt), ← List.drop_eq_getElem_cons h]
    · refine ⟨i, by rw [if_neg h], le_rfl, hi, ?_⟩
      simp [List.drop_eq_nil_of_le (not_lt.mp h)]

theorem mergeLoop_of {m : Nat} {a b : List Int} (ha : ∀ x ∈ a, 0 ≤ x ∧ x < m)
    (fuel i j : Nat) (K : Finset Int) (hi : i ≤ a.length) (hf : a.length < fuel + i) :
    mergeLoop a b fuel i j (Table.of m K) =
      .ok (Table.of m (K ∪ (meet (a.drop i) (b.drop j)).toFinset)) := by
  induction fuel generalizing i j K with
  | zero => omega
  | succ fuel ih =>
    unfold mergeLoop
    by_cases h : i < a.length ∧ j < b.length
    · rw [if_pos h, if_neg (by omega)]
      obtain ⟨i', hi', hle, hlen, hda⟩ := advance_spec (a.length + 1) h.2 hi (by omega)
      rw [hi', ok_bind, List.drop_eq_getElem_cons h.2]
      by_cases hea : i' = a.length
      · rw [if_pos hea, meet_of_dropWhile_nil (by rw [← hda]; simp [hea])]
        simp
      · rw [if_neg hea]
        have hia : i' < a.length := by omega
        rw [List.drop_eq_getElem_cons hia] at hda
        obtain ⟨j', hj', hle', hlen', hdb⟩ :=
          advance_spec (b.length + 1) hia h.2.le (by omega)
        rw [hj', ok_bind]
        rw [List.drop_eq_getElem_cons h.2] at hdb
        by_cases heb : j' = b.length
        · rw [if_pos heb, meet_of_dropWhile_cons_nil hda.symm (by rw [← hdb]; simp [heb])]
          simp
        · rw [if_neg heb]
          have hjb : j' < b.length := by omega
          rw [List.drop_eq_getElem_cons hjb] at hdb
          rw [load_of_lt hia, load_of_lt hjb]
          simp only [ok_bind]
          rw [meet_of_dropWhile_cons_cons hda.symm hdb.symm]
          have hmem := ha a[i'] (List.getElem_mem hia)
          by_cases hxy : a[i'] = b[j']
          · simp only [hxy, ↓reduceIte]
            rw [← hxy, mark_of hmem.1 hmem.2, ok_bind, ih _ _ _ hia (by omega)]
            simp
          · simp only [hxy, ↓reduceIte]
            exact ih _ _ _ hia (by omega)
    · rw [if_neg h]
      have : meet (a.drop i) (b.drop j) = [] := by
        by_cases hi : i < a.length
        · have hj : b.length ≤ j := by omega
          rw [List.drop_eq_nil_of_le hj, meet_nil_right]
        · rw [List.drop_eq_nil_of_le (not_lt.mp hi), meet_nil_left]
      simp [this]

/-- A loop whose every turn adds `g x` to the recorded values. -/
theorem foldlM_of {ι : Type} {m : Nat} {f : Table → ι → Except (Halt Rc) Table}
    {g : ι → Int → Prop} (xs : List ι)
    (h : ∀ x ∈ xs, ∀ K, ∃ K', f (Table.of m K) x = .ok (Table.of m K') ∧
      ∀ v, v ∈ K' ↔ v ∈ K ∨ g x v) (K : Finset Int) :
    ∃ K', xs.foldlM f (Table.of m K) = .ok (Table.of m K') ∧
      ∀ v, v ∈ K' ↔ v ∈ K ∨ ∃ x ∈ xs, g x v := by
  induction xs generalizing K with
  | nil => exact ⟨K, rfl, by simp⟩
  | cons x xs ih =>
    obtain ⟨K₁, h₁, hm₁⟩ := h x List.mem_cons_self K
    obtain ⟨K₂, h₂, hm₂⟩ := ih (fun y hy => h y (List.mem_cons_of_mem _ hy)) K₁
    refine ⟨K₂, ?_, ?_⟩
    · rw [List.foldlM_cons, h₁, ok_bind, h₂]
    · intro v
      rw [hm₂, hm₁]
      simp [or_assoc]

/-- What the sanity loop accepts. -/
def Valid (sets : List (List Int)) : Prop :=
  ∀ s ∈ sets, s.Pairwise (· < ·) ∧ ∀ x ∈ s, 0 ≤ x

/-- `v` occurs in two sets with different indices. -/
def Shared (sets : List (List Int)) (v : Int) : Prop :=
  ∃ i j : Fin sets.length, i ≠ j ∧ v ∈ sets[i] ∧ v ∈ sets[j]

theorem mergePair_of {m : Nat} {sets : List (List Int)}
    (hm : ∀ s ∈ sets, ∀ x ∈ s, 0 ≤ x ∧ x < m) (i j : Fin sets.length) (K : Finset Int) :
    ∃ K', mergePair sets i (Table.of m K) j = .ok (Table.of m K') ∧
      ∀ v, v ∈ K' ↔ v ∈ K ∨ (i ≠ j ∧ v ∈ meet sets[i] sets[j]) := by
  unfold mergePair
  by_cases h : i = j
  · exact ⟨K, by simp [h], by simp [h]⟩
  · rw [if_neg (by simpa [Fin.ext_iff] using h), load_of_lt i.isLt, load_of_lt j.isLt]
    simp only [ok_bind]
    rw [mergeLoop_of (hm _ (List.getElem_mem i.isLt)) _ _ _ _ (by omega) (by omega)]
    exact ⟨_, rfl, by simp [h]⟩

theorem mergeAll_of {m : Nat} {sets : List (List Int)} (hv : Valid sets)
    (hm : ∀ s ∈ sets, ∀ x ∈ s, 0 ≤ x ∧ x < m) :
    ∃ K, mergeAll sets (Table.of m ∅) = .ok (Table.of m K) ∧ ∀ v, v ∈ K ↔ Shared sets v := by
  have hinner (i : Nat) (hi : i ∈ List.range sets.length) (K : Finset Int) :
      ∃ K', (List.range sets.length).foldlM (mergePair sets i) (Table.of m K) =
        .ok (Table.of m K') ∧ ∀ v, v ∈ K' ↔ v ∈ K ∨
          ∃ j ∈ List.range sets.length, ∃ (hi : i < sets.length) (hj : j < sets.length),
            i ≠ j ∧ v ∈ meet sets[i] sets[j] := by
    apply foldlM_of
    intro j hj K
    have hi := List.mem_range.mp hi
    have hj := List.mem_range.mp hj
    obtain ⟨K', hK, hmem⟩ := mergePair_of hm ⟨i, hi⟩ ⟨j, hj⟩ K
    exact ⟨K', hK, by simpa [hi, hj, Fin.ext_iff] using hmem⟩
  obtain ⟨K, hK, hmem⟩ := foldlM_of
    (f := fun t i => (List.range sets.length).foldlM (mergePair sets i) t)
    (g := fun i v => ∃ j ∈ List.range sets.length, ∃ (hi : i < sets.length)
      (hj : j < sets.length), i ≠ j ∧ v ∈ meet sets[i] sets[j])
    (List.range sets.length) hinner ∅
  refine ⟨K, hK, fun v => ?_⟩
  rw [hmem]
  constructor
  · rintro (h | ⟨i, -, j, -, hi, hj, hne, hv⟩)
    · simp at h
    · have := mem_of_mem_meet _ _ hv
      exact ⟨⟨i, hi⟩, ⟨j, hj⟩, by simpa [Fin.ext_iff] using hne, this.1, this.2⟩
  · rintro ⟨i, j, hne, hvi, hvj⟩
    have hi := (hv _ (List.getElem_mem i.isLt)).1
    have hj := (hv _ (List.getElem_mem j.isLt)).1
    -- the passes over (i, j) and (j, i) do not both miss `v`
    rcases mem_meet_or_mem_meet hi hj hvi hvj with h | h
    · exact .inr ⟨i, by simp, j, by simp, i.isLt, j.isLt, Fin.val_ne_of_ne hne, h⟩
    · exact .inr ⟨j, by simp, i, by simp, j.isLt, i.isLt, Fin.val_ne_of_ne hne.symm, h⟩

theorem checkElems_ok {s : List Int} (cur : Option Int) (gmax : Int)
    (hs : s.Pairwise (· < ·)) (hc : ∀ c ∈ cur, ∀ x ∈ s, c < x) (hp : ∀ x ∈ s, 0 ≤ x) :
    ∃ g, checkElems cur gmax s = .ok g ∧ gmax ≤ g ∧ ∀ x ∈ s, x ≤ g := by
  induction s generalizing cur gmax with
  | nil => exact ⟨gmax, rfl, le_rfl, by simp⟩
  | cons x xs ih =>
    have hx : cur.any (· ≥ x) = false := by
      cases cur with
      | none => rfl
      | some c => simpa using hc c rfl x List.mem_cons_self
    have hx₀ : ¬ x < 0 := by
      have := hp x List.mem_cons_self
      omega
    obtain ⟨g, hg, hle, hmem⟩ := ih (some x) (if gmax < x then x else gmax)
      hs.of_cons (by simpa using (List.pairwise_cons.mp hs).1)
      (fun y hy => hp y (List.mem_cons_of_mem _ hy))
    refine ⟨g, ?_, ?_, ?_⟩
    · simp [checkElems, hx, hx₀, hg]
    · split at hle <;> omega
    · intro y hy
      rcases List.mem_cons.mp hy with rfl | hy
      · split at hle <;> omega
      · exact hmem y hy

theorem checkSets_ok {sets : List (List Int)} (gmax : Int) (hv : Valid sets) :
    ∃ g, checkSets gmax sets = .ok g ∧ gmax ≤ g ∧ ∀ s ∈ sets, ∀ x ∈ s, x ≤ g := by
  induction sets generalizing gmax with
  | nil => exact ⟨gmax, rfl, le_rfl, by simp⟩
  | cons s ss ih =>
    obtain ⟨hs, hp⟩ := hv s List.mem_cons_self
    obtain ⟨g₁, h₁, hle₁, hm₁⟩ := checkElems_ok none gmax hs (by simp) hp
    obtain ⟨g₂, h₂, hle₂, hm₂⟩ :=
      ih g₁ (fun t ht => hv t (List.mem_cons_of_mem _ ht))
    refine ⟨g₂, by rw [checkSets, h₁, ok_bind, h₂], hle₁.trans hle₂, ?_⟩
    intro t ht x hx
    rcases List.mem_cons.mp ht with rfl | ht
    · exact (hm₁ x hx).trans hle₂
    · exact hm₂ t ht x hx

/-- What passes the sanity loop over one set. -/
theorem of_checkElems_ok {s : List Int} {cur : Option Int} {gmax g : Int}
    (h : checkElems cur gmax s = .ok g) :
    s.Pairwise (· < ·) ∧ (∀ c ∈ cur, ∀ x ∈ s, c < x) ∧ ∀ x ∈ s, 0 ≤ x := by
  induction s generalizing cur gmax with
  | nil => simp
  | cons x xs ih =>
    rw [checkElems] at h
    split at h
    · simp at h
    · next hcur =>
      split at h
      · simp at h
      · next hx =>
        obtain ⟨hsort, hlt, hpos⟩ := ih h
        have hxs : ∀ y ∈ xs, x < y := hlt x rfl
        have hcx : ∀ c ∈ cur, c < x := by
          rintro c rfl
          simpa using hcur
        refine ⟨List.pairwise_cons.mpr ⟨hxs, hsort⟩, fun c hc y hy => ?_, fun y hy => ?_⟩
        · rcases List.mem_cons.mp hy with rfl | hy
          · exact hcx c hc
          · exact (hcx c hc).trans (hxs y hy)
        · rcases List.mem_cons.mp hy with rfl | hy
          · exact not_lt.mp hx
          · exact hpos y hy

theorem of_checkSets_ok {sets : List (List Int)} {gmax g : Int}
    (h : checkSets gmax sets = .ok g) : Valid sets := by
  induction sets generalizing gmax with
  | nil => simp [Valid]
  | cons s ss ih =>
    rw [checkSets, bind_eq_ok] at h
    obtain ⟨g₁, hs, hss⟩ := h
    obtain ⟨hsort, -, hpos⟩ := of_checkElems_ok hs
    intro t ht
    rcases List.mem_cons.mp ht with rfl | ht
    · exact ⟨hsort, hpos⟩
    · exact ih hss t ht

theorem checkElems_error {s : List Int} {cur : Option Int} {gmax : Int} {e : Halt Rc}
    (h : checkElems cur gmax s = .error e) : e = .code .errInvldArg := by
  induction s generalizing cur gmax with
  | nil => simp [checkElems] at h
  | cons x xs ih =>
    rw [checkElems] at h
    split at h
    · exact (Except.error.inj h).symm
    · split at h
      · exact (Except.error.inj h).symm
      · exact ih h

theorem checkSets_error {sets : List (List Int)} {gmax : Int} {e : Halt Rc}
    (h : checkSets gmax sets = .error e) : e = .code .errInvldArg := by
  induction sets generalizing gmax with
  | nil => simp [checkSets] at h
  | cons s ss ih =>
    rw [checkSets] at h
    cases hs : checkElems none gmax s with
    | error e' =>
      rw [hs, error_bind] at h
      exact checkElems_error (hs.trans h)
    | ok g =>
      rw [hs, ok_bind] at h
      exact ih h

/-- Sets that are not valid do not pass the sanity loop. -/
theorem checkSets_invalid {sets : List (List Int)} {gmax : Int} (h : ¬Valid sets) :
    checkSets gmax sets = .error (.code .errInvldArg) := by
  cases hc : checkSets gmax sets with
  | ok g => exact absurd (of_checkSets_ok hc) h
  | error e => rw [checkSets_error hc]

/-- The recorded values from `i` on, over `k` cells. -/
def kept (K : Finset Int) (i k : Nat) : List Int :=
  ((List.range' i k).filter fun v : Nat => (v : Int) ∈ K).map fun v : Nat => (v : Int)

theorem fillRes_of {m : Nat} {K : Finset Int} (k i j : Nat) (res : List Int)
    (hi : i + k = m) (hr : res.length = j + (kept K i k).length) :
    fillRes (htabOf m K) k i j res = .ok (res.take j ++ kept K i k) := by
  induction k generalizing i j res with
  | zero => simp_all [fillRes, kept]
  | succ k ih =>
    have hk : kept K i (k + 1) =
        if (i : Int) ∈ K then (i : Int) :: kept K (i + 1) k else kept K (i + 1) k := by
      by_cases h : (i : Int) ∈ K <;> simp [kept, List.range'_succ, h]
    rw [fillRes, load_htabOf K (by omega), ok_bind]
    by_cases h : (i : Int) ∈ K
    · rw [hk, if_pos h] at hr
      have hj : j < res.length := by simp at hr; omega
      rw [if_pos h, if_pos (by omega), store_of_lt hj, ok_bind,
        ih (i + 1) (j + 1) _ (by omega) (by simp at hr ⊢; omega), hk, if_pos h]
      simp [List.take_add_one, hj, List.take_set_of_le]
    · rw [hk, if_neg h] at hr ⊢
      rw [if_neg h, if_neg (by simp), ih (i + 1) j res (by omega) hr]

theorem kept_pairwise (K : Finset Int) (i k : Nat) : (kept K i k).Pairwise (· < ·) := by
  rw [kept, List.pairwise_map]
  exact ((List.pairwise_lt_range' 1 one_pos).filter _).imp (by simp)

theorem mem_kept {K : Finset Int} {m : Nat} {v : Int} (hK : ∀ x ∈ K, 0 ≤ x ∧ x < m) :
    v ∈ kept K 0 m ↔ v ∈ K := by
  simp only [kept, List.mem_map, List.mem_filter, List.mem_range'_1, decide_eq_true_eq]
  constructor
  · rintro ⟨w, ⟨-, hw⟩, rfl⟩
    exact hw
  · intro hv
    have := hK v hv
    exact ⟨v.toNat, ⟨by omega, by rwa [Int.toNat_of_nonneg this.1]⟩, Int.toNat_of_nonneg this.1⟩

theorem kept_length {K : Finset Int} {m : Nat} (hK : ∀ x ∈ K, 0 ≤ x ∧ x < m) :
    (kept K 0 m).length = K.card := by
  have hn : (kept K 0 m).Nodup := (kept_pairwise K 0 m).imp ne_of_lt
  rw [← List.toFinset_card_of_nodup hn]
  congr 1
  ext v
  rw [List.mem_toFinset, mem_kept hK]

/-- On valid sets, with the memory it asks for, the result is the strictly
increasing list of the shared values. -/
theorem getKSetIntersection_spec {sets : List (List Int)} (hv : Valid sets) :
    ∃ res, getKSetIntersection (fun _ => true) sets = .ok res ∧ res.Pairwise (· < ·) ∧
      ∀ v, v ∈ res ↔ Shared sets v := by
  unfold getKSetIntersection
  by_cases hn : sets.length = 0
  · refine ⟨[], by rw [if_pos hn], List.Pairwise.nil, fun v => ?_⟩
    simp only [List.not_mem_nil, false_iff]
    rintro ⟨i, -⟩
    exact absurd i.isLt (by omega)
  · obtain ⟨g, hg, hle, hmem⟩ := checkSets_ok (-1) hv
    have hm : ∀ s ∈ sets, ∀ x ∈ s, 0 ≤ x ∧ x < ((g + 1).toNat : Int) := by
      intro s hs x hx
      have h₀ := (hv s hs).2 x hx
      have h₁ := hmem s hs x hx
      omega
    obtain ⟨K, hK, hmemK⟩ := mergeAll_of hv hm
    have hKm : ∀ x ∈ K, 0 ≤ x ∧ x < ((g + 1).toNat : Int) := by
      intro x hx
      obtain ⟨i, -, -, hi, -⟩ := (hmemK x).mp hx
      exact hm _ (List.getElem_mem i.isLt) x hi
    have h₀ : (⟨List.replicate (g + 1).toNat (-1), 0⟩ : Table) = Table.of (g + 1).toNat ∅ := by
      simp [Table.of, htabOf_empty]
    rw [if_neg hn, hg, ok_bind, h₀, hK]
    simp only [Bool.true_eq_false, ↓reduceIte, ok_bind]
    by_cases hc : (Table.of (g + 1).toNat K).ilen = 0
    · have hKe : K = ∅ := Finset.card_eq_zero.mp hc
      refine ⟨[], by rw [if_pos hc], List.Pairwise.nil, fun v => ?_⟩
      rw [← hmemK, hKe]
      simp
    · refine ⟨kept K 0 (g + 1).toNat, ?_, kept_pairwise _ _ _, fun v => ?_⟩
      · rw [if_neg hc]
        simp only [Table.of]
        rw [fillRes_of _ _ _ _ (by omega) (by rw [kept_length hKm]; simp)]
        simp
      · rw [mem_kept hKm, hmemK]

/-- The call is refused exactly on sets that are not valid; on all others it returns the
strictly increasing list of the values that two of them share. -/
theorem call_exact (sets : List (List Int)) :
    (call (fun _ => true) sets = (.error (.code .errInvldArg), ⟨none, 0⟩) ↔ ¬Valid sets) ∧
      (Valid sets → ∃ vals : List Int, vals.Pairwise (· < ·) ∧ (∀ v, v ∈ vals ↔ Shared sets v) ∧
        call (fun _ => true) sets =
          (.ok (), ⟨if vals = [] then none else some vals, vals.length⟩)) := by
  have hvalid (hv : Valid sets) : ∃ vals : List Int, vals.Pairwise (· < ·) ∧
      (∀ v, v ∈ vals ↔ Shared sets v) ∧ call (fun _ => true) sets =
        (.ok (), ⟨if vals = [] then none else some vals, vals.length⟩) := by
    obtain ⟨res, hres, hsort, hmem⟩ := getKSetIntersection_spec hv
    refine ⟨res, hsort, hmem, ?_⟩
    rw [call, hres]
    cases res with
    | nil => rfl
    | cons v vs => simp
  refine ⟨⟨fun hcall hv => ?_, fun hnot => ?_⟩, hvalid⟩
  · obtain ⟨vals, -, -, hok⟩ := hvalid hv
    have hrc := congrArg Prod.fst (hok.symm.trans hcall)
    simp at hrc
  · have hne : sets.length ≠ 0 := by
      intro hlen
      refine hnot ?_
      rw [List.length_eq_zero_iff.mp hlen]
      simp [Valid]
    have herr : getKSetIntersection (fun _ => true) sets = .error (.code .errInvldArg) := by
      rw [getKSetIntersection, if_neg hne, checkSets_invalid hnot, error_bind]
    rw [call, herr]

example : getKSetIntersection (fun _ => true) [[2, 3], [1, 3], [2, 5]] = .ok [2, 3] := by
  decide

end LibQuo.SetIntersection
