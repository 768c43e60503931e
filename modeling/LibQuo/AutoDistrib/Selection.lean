import LibQuo.Lib.Capacity
import LibQuo.SetIntersection

/-!
`quo-auto-distrib.c`, from the affinity table to `out_selected`: every process
decides alone, from the same table, whether it is selected.
-/

namespace LibQuo.AutoDistrib
open CMem SetIntersection

inductive Site
  | set (s : SetIntersection.Site)
  | bigHtab
  deriving DecidableEq, Repr

/-- The disjoint branch on one resource, from element `rank` on. -/
def disjointRow (my max : Int) : Int → Int → List Int → Int
  | _, out, [] => out
  | rank, out, id :: ids =>
      disjointRow my max (rank + 1) (if my = id ∧ rank < max then 1 else out) ids

/-- The disjoint branch: the position in the list decides. -/
def disjointRows (my max : Int) (out : Int) : List (List Int) → Int
  | [] => out
  | row :: rows =>
      if out = 1 then out else disjointRows my max (disjointRow my max 0 out row) rows

/-- The partial-overlap branch on one resource: shared ids are skipped, and the
`break` leaves the row. -/
def partialRow (my max : Int) (htab : List Int) :
    Int → Int → List Int → Except (Halt Rc) Int
  | _, out, [] => .ok out
  | rmapped, out, id :: ids => do
      let cell ← loadInt htab id
      if cell ≠ -1 then partialRow my max htab rmapped out ids
      else if my = id ∧ rmapped < max then .ok 1
      else partialRow my max htab (rmapped + 1) out ids

/-- The partial-overlap branch: a running count of unshared ids decides. -/
def partialRows (my max : Int) (htab : List Int) (out : Int) :
    List (List Int) → Except (Halt Rc) Int
  | [] => .ok out
  | row :: rows =>
      if out = 1 then .ok out
      else do
        let out ← partialRow my max htab 0 out row
        partialRows my max htab out rows

/-- `big_htab[k[i]] = k[i]` over the shared ids. -/
def fillHtab (htab : List Int) (k : List Int) : Except (Halt Rc) (List Int) :=
  k.foldlM (fun htab id => storeInt htab id id) htab

/-- `QUO_auto_distrib` once the table `rankIds` is known: `*out_selected` for
the process `mySmpRank` of `nsmpRanks`. -/
def selectFrom (malloc : Site → Bool) (nsmpRanks : Nat) (mySmpRank max : Int)
    (rankIds : List (List Int)) : Except (Halt Rc) Int := do
  let k ← getKSetIntersection (fun s => malloc (.set s)) rankIds
  if k.length = 0 then
    .ok (disjointRows mySmpRank max 0 rankIds)
  else if nsmpRanks = k.length then
    .ok (if mySmpRank < mulInt max rankIds.length then 1 else 0)
  else if malloc .bigHtab = false then .error (.code .errOor)
  else do
    let htab ← fillHtab (List.replicate nsmpRanks (-1)) k
    partialRows mySmpRank max htab 0 rankIds

/-- What both loops over a row decide: `my` is in the row, is not in `K`, and
fewer than `max` ids outside `K` come before it. -/
def Eligible (K : Finset Int) (max my : Int) (row : List Int) : Prop :=
  my ∈ row ∧ my ∉ K ∧ ((row.filter fun x => x < my ∧ x ∉ K).length : Int) < max

instance (K : Finset Int) (max my : Int) (row : List Int) : Decidable (Eligible K max my row) :=
  inferInstanceAs (Decidable (_ ∧ _))

/-- `Eligible` with `c` ids outside `K` already counted. -/
def EligibleAfter (K : Finset Int) (max my c : Int) (row : List Int) : Prop :=
  my ∈ row ∧ my ∉ K ∧ c + ((row.filter fun x => x < my ∧ x ∉ K).length : Int) < max

instance (K : Finset Int) (max my c : Int) (row : List Int) :
    Decidable (EligibleAfter K max my c row) :=
  inferInstanceAs (Decidable (_ ∧ _))

theorem eligibleAfter_zero (K : Finset Int) (max my : Int) (row : List Int) :
    EligibleAfter K max my 0 row ↔ Eligible K max my row := by
  simp [EligibleAfter, Eligible]

theorem not_eligibleAfter_nil (K : Finset Int) (max my c : Int) :
    ¬ EligibleAfter K max my c [] := by
  simp [EligibleAfter]

/-- An id of `K` at the head does not count. -/
theorem eligibleAfter_cons_mem {K : Finset Int} {max my c id : Int} {ids : List Int}
    (hid : id ∈ K) : EligibleAfter K max my c (id :: ids) ↔ EligibleAfter K max my c ids := by
  simp only [EligibleAfter, List.mem_cons, List.filter_cons, hid, not_true_eq_false, and_false,
    decide_false, Bool.false_eq_true, ↓reduceIte]
  constructor
  · rintro ⟨h | h, hK, hc⟩
    · exact absurd (h ▸ hid) hK
    · exact ⟨h, hK, hc⟩
  · rintro ⟨h, hK, hc⟩
    exact ⟨.inr h, hK, hc⟩

/-- The own id at the head: nothing comes before it. -/
theorem eligibleAfter_cons_self {K : Finset Int} {max my c : Int} {ids : List Int}
    (hs : (my :: ids).Pairwise (· < ·)) (hid : my ∉ K) :
    EligibleAfter K max my c (my :: ids) ↔ c < max := by
  have hf : (my :: ids).filter (fun x => x < my ∧ x ∉ K) = [] := by
    simp only [List.filter_eq_nil_iff]
    intro x hx
    rcases List.mem_cons.mp hx with rfl | hx
    · simp
    · have := (List.pairwise_cons.mp hs).1 x hx
      simp [this.le]
  rw [EligibleAfter, hf]
  simp [hid]

/-- Another id outside `K` at the head adds one to the count. -/
theorem eligibleAfter_cons_ne {K : Finset Int} {max my c id : Int} {ids : List Int}
    (hs : (id :: ids).Pairwise (· < ·)) (hid : id ∉ K) (hne : my ≠ id) :
    EligibleAfter K max my c (id :: ids) ↔ EligibleAfter K max my (c + 1) ids := by
  simp only [EligibleAfter, List.mem_cons, hne, false_or]
  refine and_congr_right fun hmem => and_congr_right fun _ => ?_
  have hlt : id < my := (List.pairwise_cons.mp hs).1 my hmem
  simp only [List.filter_cons, hlt, hid, not_false_eq_true, and_self, decide_true, ↓reduceIte,
    List.length_cons]
  omega

theorem not_eligibleAfter_of_le {K : Finset Int} {max my c : Int} {row : List Int}
    (h : max ≤ c) : ¬ EligibleAfter K max my c row := by
  rintro ⟨-, -, hc⟩
  omega

theorem disjointRow_spec {my max c out : Int} {row : List Int} (hs : row.Pairwise (· < ·)) :
    disjointRow my max c out row = if EligibleAfter ∅ max my c row then 1 else out := by
  induction row generalizing c out with
  | nil => simp [disjointRow, not_eligibleAfter_nil]
  | cons id ids ih =>
    rw [disjointRow, ih hs.of_cons]
    by_cases hid : my = id
    · subst hid
      have hnot : ¬ EligibleAfter ∅ max my (c + 1) ids := by
        rintro ⟨hmem, -⟩
        exact lt_irrefl my ((List.pairwise_cons.mp hs).1 my hmem)
      simp only [hnot, ↓reduceIte, true_and, eligibleAfter_cons_self hs (Finset.notMem_empty my)]
    · simp only [hid, false_and, ↓reduceIte,
        eligibleAfter_cons_ne hs (Finset.notMem_empty id) hid]

theorem partialRow_spec {K : Finset Int} {n : Nat} {my max c out : Int} {row : List Int}
    (hs : row.Pairwise (· < ·)) (hr : ∀ id ∈ row, 0 ≤ id ∧ id < n) :
    partialRow my max (htabOf n K) c out row =
      .ok (if EligibleAfter K max my c row then 1 else out) := by
  induction row generalizing c with
  | nil => simp [partialRow, not_eligibleAfter_nil]
  | cons id ids ih =>
    obtain ⟨h₀, h₁⟩ := hr id List.mem_cons_self
    have ih := fun c => ih (c := c) hs.of_cons fun x hx => hr x (List.mem_cons_of_mem _ hx)
    rw [partialRow, loadInt_htabOf K h₀ h₁, ok_bind]
    by_cases hK : id ∈ K
    · rw [if_pos hK, if_pos (by omega), ih]
      simp only [eligibleAfter_cons_mem hK]
    · rw [if_neg hK, if_neg (by simp)]
      by_cases hid : my = id
      · subst hid
        simp only [true_and, eligibleAfter_cons_self hs hK]
        by_cases hc : c < max
        · simp [hc]
        · rw [if_neg hc, if_neg hc, ih, if_neg (not_eligibleAfter_of_le (by omega))]
      · simp only [hid, false_and, ↓reduceIte, ih, eligibleAfter_cons_ne hs hK hid]

theorem disjointRows_spec {my max out : Int} {rows : List (List Int)}
    (hs : ∀ row ∈ rows, row.Pairwise (· < ·)) :
    disjointRows my max out rows =
      if out = 1 ∨ ∃ row ∈ rows, Eligible ∅ max my row then 1 else out := by
  induction rows generalizing out with
  | nil => simp [disjointRows]
  | cons row rows ih =>
    rw [disjointRows, ih fun r hr => hs r (List.mem_cons_of_mem _ hr),
      disjointRow_spec (hs row List.mem_cons_self)]
    simp only [eligibleAfter_zero, List.mem_cons, exists_eq_or_imp]
    by_cases h₁ : out = 1
    · simp [h₁]
    · by_cases h₂ : Eligible ∅ max my row <;> simp [h₁, h₂]

theorem partialRows_spec {K : Finset Int} {n : Nat} {my max out : Int} {rows : List (List Int)}
    (hs : ∀ row ∈ rows, row.Pairwise (· < ·)) (hr : ∀ row ∈ rows, ∀ id ∈ row, 0 ≤ id ∧ id < n) :
    partialRows my max (htabOf n K) out rows =
      .ok (if out = 1 ∨ ∃ row ∈ rows, Eligible K max my row then 1 else out) := by
  induction rows generalizing out with
  | nil => simp [partialRows]
  | cons row rows ih =>
    rw [partialRows, partialRow_spec (hs row List.mem_cons_self) (hr row List.mem_cons_self),
      ok_bind, ih (fun r h => hs r (List.mem_cons_of_mem _ h))
        fun r h => hr r (List.mem_cons_of_mem _ h)]
    simp only [eligibleAfter_zero, List.mem_cons, exists_eq_or_imp]
    by_cases h₁ : out = 1
    · simp [h₁]
    · by_cases h₂ : Eligible K max my row <;> simp [h₁, h₂]

theorem fillHtab_of {n : Nat} {k : List Int} (hk : ∀ x ∈ k, 0 ≤ x ∧ x < n) (K : Finset Int) :
    fillHtab (htabOf n K) k = .ok (htabOf n (K ∪ k.toFinset)) := by
  induction k generalizing K with
  | nil => simp [fillHtab]; rfl
  | cons x xs ih =>
    obtain ⟨h₀, h₁⟩ := hk x List.mem_cons_self
    have := ih (fun y hy => hk y (List.mem_cons_of_mem _ hy)) (insert x K)
    unfold fillHtab at this ⊢
    rw [List.foldlM_cons, storeInt_htabOf K h₀ h₁, ok_bind, this]
    simp

/-- For each resource the strictly increasing list of the processes that cover
it, on a node of `n` processes. -/
structure AffinityTable where
  n : Nat
  rankIds : List (List Int)
  sorted : ∀ row ∈ rankIds, row.Pairwise (· < ·)
  range : ∀ row ∈ rankIds, ∀ id ∈ row, 0 ≤ id ∧ id < n

namespace AffinityTable

variable (T : AffinityTable)

def nres : Nat := T.rankIds.length

/-- Process `m` is in the list of resource `r`. -/
def Covers (m : Fin T.n) (r : Fin T.nres) : Prop := (m : Int) ∈ T.rankIds[r]

instance (m : Fin T.n) (r : Fin T.nres) : Decidable (T.Covers m r) :=
  inferInstanceAs (Decidable (_ ∈ _))

/-- The processes whose call answers `1` on this table. -/
def selected (max : Int) : Finset (Fin T.n) :=
  Finset.univ.filter fun m => selectFrom (fun _ => true) T.n m max T.rankIds = .ok 1

def SharesTwo (m : Fin T.n) : Prop := ∃ r r', r ≠ r' ∧ T.Covers m r ∧ T.Covers m r'

instance (m : Fin T.n) : Decidable (T.SharesTwo m) :=
  inferInstanceAs (Decidable (∃ _, _))

def AllShared : Prop := ∀ m, T.SharesTwo m

instance : Decidable T.AllShared := inferInstanceAs (Decidable (∀ _, _))

theorem valid : Valid T.rankIds := fun s hs =>
  ⟨T.sorted s hs, fun x hx => (T.range s hs x hx).1⟩

theorem shared_range {v : Int} (h : Shared T.rankIds v) : ∃ m : Fin T.n, (m : Int) = v := by
  obtain ⟨i, -, -, hv, -⟩ := h
  obtain ⟨h₀, h₁⟩ := T.range _ (List.getElem_mem i.isLt) v hv
  exact ⟨⟨v.toNat, by omega⟩, Int.toNat_of_nonneg h₀⟩

/-- The ids that cover two resources. -/
def sharedIds : Finset Int :=
  (Finset.univ.filter T.SharesTwo).map ⟨fun m : Fin T.n => (m : Int), fun _ _ h =>
    Fin.ext (Int.ofNat.inj h)⟩

theorem mem_sharedIds {v : Int} : v ∈ T.sharedIds ↔ Shared T.rankIds v := by
  simp only [sharedIds, Finset.mem_map, Finset.mem_filter, Finset.mem_univ, true_and]
  constructor
  · rintro ⟨m, hm, rfl⟩
    exact hm
  · intro h
    obtain ⟨m, rfl⟩ := T.shared_range h
    exact ⟨m, h, rfl⟩

theorem sharedIds_card_eq_iff : T.sharedIds.card = T.n ↔ T.AllShared := by
  rw [sharedIds, Finset.card_map]
  constructor
  · intro h m
    have := Finset.eq_univ_of_card _ (h.trans (Fintype.card_fin T.n).symm)
    simpa using this.ge (Finset.mem_univ m)
  · intro h
    rw [Finset.filter_true_of_mem fun m _ => h m]
    simp

/-- The set routine accepts the table, and what it answers is the shared ids in order. -/
theorem getKSetIntersection_rankIds :
    ∃ k, getKSetIntersection (fun _ => true) T.rankIds = .ok k ∧ k.Pairwise (· < ·) ∧
      k.toFinset = T.sharedIds ∧ k.length = T.sharedIds.card ∧ ∀ x ∈ k, 0 ≤ x ∧ x < T.n := by
  obtain ⟨k, hk, hsort, hmem⟩ := getKSetIntersection_spec T.valid
  have hkset : k.toFinset = T.sharedIds := by
    ext v
    rw [List.mem_toFinset, hmem, mem_sharedIds]
  have hlen : k.length = T.sharedIds.card := by
    rw [← hkset, List.toFinset_card_of_nodup (hsort.imp ne_of_lt)]
  have hkr : ∀ x ∈ k, 0 ≤ x ∧ x < T.n := by
    intro x hx
    obtain ⟨i, rfl⟩ := T.shared_range ((hmem x).mp hx)
    omega
  exact ⟨k, hk, hsort, hkset, hlen, hkr⟩

/-- What every process answers: the own id against `max * nres` when every
process is shared, else eligibility on some resource outside the shared ids. -/
theorem selectFrom_spec (m : Fin T.n) (max : Int) :
    selectFrom (fun _ => true) T.n m max T.rankIds = .ok (
      if T.AllShared then (if (m : Int) < mulInt max T.nres then 1 else 0)
      else if ∃ row ∈ T.rankIds, Eligible T.sharedIds max m row then 1 else 0) := by
  obtain ⟨k, hk, -, hkset, hlen, hkr⟩ := T.getKSetIntersection_rankIds
  unfold selectFrom
  rw [hk, ok_bind, hlen]
  by_cases h₀ : T.sharedIds.card = 0
  · have hn : ¬ T.AllShared := by
      rw [← sharedIds_card_eq_iff, h₀]
      exact (m.pos).ne
    rw [if_pos h₀, if_neg hn, disjointRows_spec T.sorted, Finset.card_eq_zero.mp h₀]
    simp
  · rw [if_neg h₀]
    by_cases hall : T.AllShared
    · rw [if_pos (T.sharedIds_card_eq_iff.mpr hall).symm, if_pos hall]
      rfl
    · have hne : T.n ≠ T.sharedIds.card := fun h => hall (T.sharedIds_card_eq_iff.mp h.symm)
      rw [if_neg hne, if_neg (by simp), if_neg hall, ← htabOf_empty, fillHtab_of hkr, ok_bind,
        hkset, partialRows_spec T.sorted T.range]
      simp

theorem mem_selected_of_allShared {max : Int} (h : T.AllShared) (m : Fin T.n) :
    m ∈ T.selected max ↔ (m : Int) < mulInt max T.nres := by
  simp [selected, selectFrom_spec, h]

theorem mem_selected_of_not_allShared {max : Int} (h : ¬ T.AllShared) (m : Fin T.n) :
    m ∈ T.selected max ↔ ∃ row ∈ T.rankIds, Eligible T.sharedIds max m row := by
  simp [selected, selectFrom_spec, h]

end AffinityTable

end LibQuo.AutoDistrib
