import LibQuo.AutoDistrib.Selection

/-!
The comment in `QUO_auto_distrib` asks to maintain "max workers per resource":
the selected processes can be spread over resources they cover with at most
`max_qids_per_res_type` on each. The two branches that look at positions keep
it. The branch for full overlap looks at the own id alone and keeps it exactly
when Hall's condition holds for the ids it selects.
-/

namespace LibQuo.AutoDistrib
open CMem SetIntersection

/-- Among the ids of a row outside `K`, a larger one has more before it. -/
theorem length_before_lt {K : Finset Int} {row : List Int} {x y : Int} (hx : x ∈ row)
    (hK : x ∉ K) (hxy : x < y) :
    (row.filter fun z => z < x ∧ z ∉ K).length < (row.filter fun z => z < y ∧ z ∉ K).length := by
  have hsplit : (row.filter fun z => z < x ∧ z ∉ K) =
      (row.filter fun z => z < y ∧ z ∉ K).filter fun z => z < x := by
    rw [List.filter_filter]
    apply List.filter_congr
    intro z _
    by_cases hz : z < x
    · simp [hz, hz.trans hxy]
    · simp [hz]
  rw [hsplit, List.length_filter_lt_length_iff_exists]
  exact ⟨x, by simp [hx, hK, hxy], by simp⟩

namespace AffinityTable

variable (T : AffinityTable)

/-- The selected processes can be spread over resources they cover, at most
`max` on each. -/
def CapacityLaw (max : Int) : Prop := Capacity.Fits (T.selected max) T.Covers max.toNat

/-- Hall's condition for the ids below `max * nres`: any set of them covers
enough resources to hold it. -/
def HallCondition (max : Int) : Prop :=
  ∀ S : Finset (Fin T.n), (∀ m ∈ S, (m : Int) < max * T.nres) →
    (S.card : Int) ≤ max * (Capacity.covered T.Covers S).card

/-- Without full overlap the position of a selected process in the list that
selects it is its place on that resource. -/
theorem capacityLaw_of_not_allShared {max : Int} (hr : 0 < T.nres) (h : ¬ T.AllShared) :
    T.CapacityLaw max := by
  have : Nonempty (Fin T.nres) := ⟨⟨0, hr⟩⟩
  apply Capacity.fits_of_rank (fun m r => T.Covers m r ∧ (m : Int) ∉ T.sharedIds)
    fun r m => (T.rankIds[r].filter fun z => z < (m : Int) ∧ z ∉ T.sharedIds).length
  · intro m hm
    obtain ⟨row, hrow, hmem, hK, hlt⟩ := (T.mem_selected_of_not_allShared h m).mp hm
    obtain ⟨i, hi, rfl⟩ := List.getElem_of_mem hrow
    exact ⟨⟨i, hi⟩, ⟨hmem, hK⟩, hmem, by simp only [Fin.getElem_fin]; omega⟩
  · intro r m hm m' hm' heq
    rcases lt_trichotomy (m : Int) m' with hlt | heq' | hlt
    · exact absurd heq (length_before_lt hm.1 hm.2 hlt).ne
    · exact Fin.ext (Int.ofNat.inj heq')
    · exact absurd heq (length_before_lt hm'.1 hm'.2 hlt).ne'

theorem capacityLaw_of_allShared {max : Int} (hr : 0 < T.nres) (hmax : 1 ≤ max)
    (hint : max * T.nres ≤ intMax) (h : T.AllShared) :
    T.CapacityLaw max ↔ T.HallCondition max := by
  have : Nonempty (Fin T.nres) := ⟨⟨0, hr⟩⟩
  have hsel (m : Fin T.n) : m ∈ T.selected max ↔ (m : Int) < max * T.nres := by
    rw [T.mem_selected_of_allShared h, mulInt_of_range (Int.mul_nonneg (by omega) (by omega)) hint]
  rw [CapacityLaw, Capacity.fits_iff_hall]
  refine forall_congr' fun S => ?_
  have hsub : S ⊆ T.selected max ↔ ∀ m ∈ S, (m : Int) < max * T.nres :=
    forall₂_congr fun m _ => hsel m
  rw [hsub]
  refine imp_congr_right fun _ => ?_
  rw [← Int.ofNat_le]
  push_cast
  rw [Int.toNat_of_nonneg (by omega)]

/-- The capacity law of `QUO_auto_distrib` holds exactly when full overlap
comes with Hall's condition. -/
theorem capacityLaw_iff {max : Int} (hr : 0 < T.nres) (hmax : 1 ≤ max)
    (hint : max * T.nres ≤ intMax) :
    T.CapacityLaw max ↔ (T.AllShared → T.HallCondition max) := by
  by_cases h : T.AllShared
  · simpa [h] using T.capacityLaw_of_allShared hr hmax hint h
  · simpa [h] using T.capacityLaw_of_not_allShared hr h

end AffinityTable

/-- Two sockets, two processes bound to each. -/
def boundNode : AffinityTable where
  n := 4
  rankIds := [[0, 1], [2, 3]]
  sorted := by decide
  range := by decide

theorem boundNode_capacityLaw : boundNode.CapacityLaw 1 :=
  (boundNode.capacityLaw_iff (by decide) (by decide) (by decide)).mpr fun h =>
    absurd (h ⟨0, by decide⟩) (by decide)

/-- Three unbound processes on two sockets and a third resource nobody covers,
such as a NUMA node without processors. -/
def unboundNode : AffinityTable where
  n := 3
  rankIds := [[0, 1, 2], [0, 1, 2], []]
  sorted := by decide
  range := by decide

/-- With one process per resource all three are selected for two sockets. -/
theorem unboundNode_overfull :
    1 * (unboundNode.nres : Int) ≤ intMax ∧ unboundNode.selected 1 = Finset.univ ∧
      ¬ unboundNode.CapacityLaw 1 := by
  refine ⟨by decide, by decide, fun h => ?_⟩
  have : Nonempty (Fin unboundNode.nres) := ⟨⟨0, by decide⟩⟩
  exact absurd (Capacity.fits_iff_hall.mp h Finset.univ (by decide)) (by decide)

end LibQuo.AutoDistrib
