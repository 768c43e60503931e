import LibQuo.AutoDistrib.Selection
import LibQuo.Lib.SortedRank
import Mathlib.Data.Fintype.Fin

/-!
How many processes `QUO_auto_distrib` selects, for each resource and in all, over the
calls of all processes of a node.
-/

namespace LibQuo.AutoDistrib
open CMem SetIntersection SortedRank

/-- `my` is in the list of a resource, with fewer than `max` ids outside `K` before it. -/
def Early (K : Finset Int) (max my : Int) (row : List Int) : Prop :=
  my ∈ row ∧ (((row.takeWhile (· ≠ my)).filter (· ∉ K)).length : Int) < max

instance (K : Finset Int) (max my : Int) (row : List Int) : Decidable (Early K max my row) :=
  inferInstanceAs (Decidable (_ ∧ _))

theorem eligible_iff_early {K : Finset Int} {max my : Int} {row : List Int}
    (hs : row.Pairwise (· < ·)) : Eligible K max my row ↔ my ∉ K ∧ Early K max my row := by
  rw [Eligible, Early, and_left_comm]
  refine and_congr_right fun _ => and_congr_right fun hmem => ?_
  rw [takeWhile_ne_eq_filter_lt hs hmem, List.filter_filter]
  simp only [Bool.decide_and, decide_not, Bool.and_comm]

/-- The eligible ids of a row are the first `max` of those outside `K`. -/
theorem filter_eligible {K : Finset Int} {max : Int} {row : List Int}
    (hs : row.Pairwise (· < ·)) (hmax : 0 ≤ max) :
    (row.filter fun x => Eligible K max x row) = (row.filter (· ∉ K)).take max.toNat := by
  rw [← filter_rank_lt (hs.filter _), List.filter_filter]
  refine List.filter_congr fun x hx => ?_
  have hrank : (row.filter fun z => z < x ∧ z ∉ K) = (row.filter (· ∉ K)).filter (· < x) := by
    rw [List.filter_filter]
    simp
  rw [← Bool.decide_and, decide_eq_decide, Eligible, hrank]
  constructor
  · rintro ⟨-, hK, hlt⟩
    exact ⟨by omega, hK⟩
  · rintro ⟨hlt, hK⟩
    exact ⟨hx, hK, by omega⟩

namespace AffinityTable

variable (T : AffinityTable)

theorem natCast_injective : Function.Injective fun m : Fin T.n => (m : Int) := by
  intro m m' h
  exact Fin.ext (Int.ofNat.inj h)

def qid : Fin T.n ↪ Int where
  toFun m := m
  inj' := T.natCast_injective

theorem sorted_row (r : Fin T.nres) : T.rankIds[r].Pairwise (· < ·) :=
  T.sorted _ (List.getElem_mem r.isLt)

/-- A process that no two resources share covers one at most. -/
theorem covers_unique {m : Fin T.n} (hm : (m : Int) ∉ T.sharedIds) {r r' : Fin T.nres}
    (h : T.Covers m r) (h' : T.Covers m r') : r = r' := by
  by_contra hne
  exact hm (T.mem_sharedIds.mpr ⟨r, r', hne, h, h'⟩)

/-- Without full overlap, the selected processes of a resource are its first `max` unshared
ones. -/
theorem selected_of_resource {max : Int} (hmax : 0 ≤ max) (h : ¬T.AllShared) (r : Fin T.nres) :
    ((T.selected max).filter fun m => T.Covers m r).map T.qid =
      ((T.rankIds[r].filter (· ∉ T.sharedIds)).take max.toNat).toFinset := by
  ext v
  rw [← filter_eligible (T.sorted_row r) hmax]
  simp only [Finset.mem_map, Finset.mem_filter, List.mem_toFinset, List.mem_filter,
    decide_eq_true_eq]
  constructor
  · rintro ⟨m, ⟨hsel, hcov⟩, rfl⟩
    obtain ⟨row, hrow, hel⟩ := (T.mem_selected_of_not_allShared h m).mp hsel
    obtain ⟨i, hi, rfl⟩ := List.getElem_of_mem hrow
    obtain rfl : r = ⟨i, hi⟩ := T.covers_unique hel.2.1 hcov hel.1
    exact ⟨hcov, hel⟩
  · rintro ⟨hmem, hel⟩
    obtain ⟨h₀, h₁⟩ := T.range _ (List.getElem_mem r.isLt) v hmem
    obtain ⟨m, rfl⟩ : ∃ m : Fin T.n, (m : Int) = v := ⟨⟨v.toNat, by omega⟩, Int.toNat_of_nonneg h₀⟩
    exact ⟨m, ⟨(T.mem_selected_of_not_allShared h m).mpr ⟨_, List.getElem_mem r.isLt, hel⟩, hmem⟩,
      rfl⟩

/-- Each resource gets as many processes as it may, if it has them. -/
theorem card_selected_of_resource {max : Int} (hmax : 0 ≤ max) (h : ¬T.AllShared)
    (r : Fin T.nres) :
    (((T.selected max).filter fun m => T.Covers m r).card : Int) =
      min max (T.rankIds[r].filter (· ∉ T.sharedIds)).length := by
  have hnodup : ((T.rankIds[r].filter (· ∉ T.sharedIds)).take max.toNat).Nodup :=
    (((T.sorted_row r).imp ne_of_lt).filter _).sublist (List.take_sublist _ _)
  have hcard := congrArg Finset.card (T.selected_of_resource hmax h r)
  rw [Finset.card_map, List.toFinset_card_of_nodup hnodup, List.length_take] at hcard
  rw [hcard]
  omega

/-- What every process answers when not all of them are shared; what this makes of each
resource; and that the branch for disjoint lists does what the other one would. -/
theorem selection_exact {max : Int} (hmax : 1 ≤ max) (h : ¬T.AllShared) :
    (∀ m : Fin T.n, selectFrom (fun _ => true) T.n m max T.rankIds = .ok (
        if (m : Int) ∉ T.sharedIds ∧ ∃ row ∈ T.rankIds, Early T.sharedIds max m row
        then 1 else 0)) ∧
      (∀ r, (((T.selected max).filter fun m => T.Covers m r).card : Int) =
        min max (T.rankIds[r].filter (· ∉ T.sharedIds)).length) ∧
      (∀ m ∈ T.selected max, ∀ r r', T.Covers m r → T.Covers m r' → r = r') ∧
      ∀ m : Fin T.n, partialRows m max (List.replicate T.n (-1)) 0 T.rankIds =
        .ok (disjointRows m max 0 T.rankIds) := by
  refine ⟨fun m => ?_, fun r => T.card_selected_of_resource (by omega) h r, ?_, fun m => ?_⟩
  · rw [T.selectFrom_spec, if_neg h]
    congr 1
    refine if_congr ?_ rfl rfl
    constructor
    · rintro ⟨row, hrow, hel⟩
      obtain ⟨hK, hearly⟩ := (eligible_iff_early (T.sorted row hrow)).mp hel
      exact ⟨hK, row, hrow, hearly⟩
    · rintro ⟨hK, row, hrow, hearly⟩
      exact ⟨row, hrow, (eligible_iff_early (T.sorted row hrow)).mpr ⟨hK, hearly⟩⟩
  · intro m hm r r' hr hr'
    obtain ⟨row, -, hel⟩ := (T.mem_selected_of_not_allShared h m).mp hm
    exact T.covers_unique hel.2.1 hr hr'
  · rw [← htabOf_empty, partialRows_spec T.sorted T.range, disjointRows_spec T.sorted]

end AffinityTable

/-- Two resources, of which process 1 covers both, and process 4 covers none. -/
def overlapNode : AffinityTable where
  n := 5
  rankIds := [[0, 1, 3], [1, 2]]
  sorted := by decide
  range := by decide

theorem overlapNode_selection :
    (((overlapNode.selected 1).filter fun m => overlapNode.Covers m ⟨0, by decide⟩).card : Int) =
      1 :=
  ((overlapNode.selection_exact (by decide) (by decide)).2.1 ⟨0, by decide⟩).trans (by decide)

namespace AffinityTable

variable (T : AffinityTable)

/-! ## Full overlap -/

/-- With full overlap the lowest ids are selected, as many as the product in `int` says. -/
theorem card_selected_of_allShared {max : Int} (h : T.AllShared) :
    (T.selected max).card = min T.n (mulInt max T.nres).toNat := by
  have hsel : T.selected max =
      Finset.univ.filter fun m : Fin T.n => (m : Nat) < (mulInt max T.nres).toNat := by
    ext m
    rw [T.mem_selected_of_allShared h, Finset.mem_filter]
    simp only [Finset.mem_univ, true_and]
    omega
  rw [hsel, Fin.card_filter_val_lt]

/-- The number of selected processes is the one the exact product gives if and only if the
product fits into an `int`, or what it wraps to is no less than the number of
processes. -/
theorem card_selected_iff {max : Int} (hn : 1 ≤ T.n) (hmax : 1 ≤ max) (h : T.AllShared) :
    ((T.selected max).card : Int) = min (T.n : Int) (max * T.nres) ↔
      max * T.nres ≤ intMax ∨
        ((T.n : Int) ≤ max * T.nres % 2 ^ 32 ∧ max * T.nres % 2 ^ 32 ≤ intMax) := by
  have hpos : 0 ≤ max * T.nres := Int.mul_nonneg (by omega) (by omega)
  have hwrap : mulInt max T.nres = if max * T.nres % 2 ^ 32 < 2 ^ 31 then max * T.nres % 2 ^ 32
      else max * T.nres % 2 ^ 32 - 2 ^ 32 := Int.bmod_def _ _
  rw [T.card_selected_of_allShared h, hwrap]
  generalize max * (T.nres : Int) = product at *
  unfold intMax at *
  split
  · omega
  · omega

/-! ## Whether anyone is selected -/

/-- Somebody is selected if and only if all processes are shared, or some resource has one
that is not. -/
theorem selected_nonempty_iff {max : Int} (hn : 1 ≤ T.n) (hmax : 1 ≤ max)
    (hint : max * T.nres ≤ intMax) : (T.selected max).Nonempty ↔
      T.AllShared ∨ ∃ m r, T.Covers m r ∧ ¬T.SharesTwo m := by
  by_cases h : T.AllShared
  · refine iff_of_true ?_ (.inl h)
    have hres : 1 ≤ T.nres := by
      obtain ⟨r, -⟩ := h ⟨0, hn⟩
      exact r.pos
    have hprod : 1 ≤ max * T.nres := by
      have hlt : 0 < max * T.nres := Int.mul_pos (by omega) (by omega)
      omega
    rw [← Finset.card_pos, T.card_selected_of_allShared h,
      mulInt_of_range (by omega) hint]
    omega
  · simp only [h, false_or]
    constructor
    · rintro ⟨m, hm⟩
      obtain ⟨row, hrow, hmem, hK, -⟩ := (T.mem_selected_of_not_allShared h m).mp hm
      obtain ⟨i, hi, rfl⟩ := List.getElem_of_mem hrow
      exact ⟨m, ⟨i, hi⟩, hmem, fun htwo => hK (T.mem_sharedIds.mpr htwo)⟩
    · rintro ⟨m, r, hcov, hnot⟩
      have hK : (m : Int) ∉ T.sharedIds := fun hmem => hnot (T.mem_sharedIds.mp hmem)
      have hlen : 0 < (T.rankIds[r].filter (· ∉ T.sharedIds)).length :=
        List.length_pos_of_mem (List.mem_filter.mpr ⟨hcov, by simpa using hK⟩)
      have hmax₀ : 0 ≤ max := by omega
      have hcard := T.card_selected_of_resource hmax₀ h r
      have hpos : 0 < ((T.selected max).filter fun m => T.Covers m r).card := by omega
      obtain ⟨m', hm'⟩ := Finset.card_pos.mp hpos
      exact ⟨m', (Finset.mem_filter.mp hm').1⟩

end AffinityTable

/-- Two processes that are bound to nothing in particular, on two resources. -/
def openNode : AffinityTable where
  n := 2
  rankIds := [[0, 1], [0, 1]]
  sorted := by decide
  range := by decide

theorem openNode_card : ((openNode.selected 1).card : Int) = min 2 (1 * 2) := by
  have hmax : (1 : Int) ≤ 1 := le_rfl
  exact (openNode.card_selected_iff (by decide) hmax (by decide)).mpr (.inl (by decide))

/-- With the largest maximum nobody is selected. -/
theorem openNode_none : openNode.AllShared ∧ openNode.selected intMax = ∅ ∧
    ((openNode.selected intMax).card : Int) ≠ min 2 (intMax * 2) := by
  refine ⟨by decide, by decide, by decide⟩

theorem openNode_nonempty : (openNode.selected 1).Nonempty := by
  have hmax : (1 : Int) ≤ 1 := le_rfl
  exact (openNode.selected_nonempty_iff (by decide) hmax (by decide)).mpr (.inl (by decide))

/-- A process that covers two resources, and one that covers none. -/
def idleNode : AffinityTable where
  n := 2
  rankIds := [[0], [0]]
  sorted := by decide
  range := by decide

/-- Nobody is selected, and two resources stay idle. -/
theorem idleNode_none : 1 * (idleNode.nres : Int) ≤ intMax ∧ idleNode.rankIds = [[0], [0]] ∧
    ¬(idleNode.selected 1).Nonempty := by
  refine ⟨by decide, rfl, by decide⟩

end LibQuo.AutoDistrib
