import LibQuo.AutoDistrib.Counts
import LibQuo.AutoDistrib.Pipeline

/-!
What `QUO_auto_distrib` is for, in its own terms: given who meets which resource, some of the
processes are chosen to work. The lists and arrays of the call come to the same.
-/

namespace LibQuo.AutoDistrib
open CMem SetIntersection

section Choice

-- Process `p` meets resource `r`.
variable {n nres : Nat} (met : Fin n → Fin nres → Prop)

/-- A process that meets two resources belongs to none. -/
def Torn (p : Fin n) : Prop := ∃ r r', r ≠ r' ∧ met p r ∧ met p r'

variable [∀ p r, Decidable (met p r)]

instance (p : Fin n) : Decidable (Torn met p) := inferInstanceAs (Decidable (∃ _, _))

/-- The processes that belong to `r` and come before `p`. -/
def ahead (r : Fin nres) (p : Fin n) : Finset (Fin n) :=
  Finset.univ.filter fun q => q < p ∧ met q r ∧ ¬Torn met q

/-- If nobody belongs to a resource, the first `limit` processes are chosen; else the first
`max` of each resource. -/
def Chosen (max limit : Int) (p : Fin n) : Prop :=
  if ∀ q, Torn met q then (p : Int) < limit
  else ¬Torn met p ∧ ∃ r, met p r ∧ ((ahead met r p).card : Int) < max

instance (max limit : Int) (p : Fin n) : Decidable (Chosen met max limit p) :=
  inferInstanceAs (Decidable (if ∀ q, Torn met q then (p : Int) < limit
    else ¬Torn met p ∧ ∃ r, met p r ∧ ((ahead met r p).card : Int) < max))

omit [∀ p r, Decidable (met p r)] in
/-- The choice depends on who meets which resource alone. -/
theorem chosen_congr {met' : Fin n → Fin nres → Prop} [hd : ∀ p r, Decidable (met p r)]
    [hd' : ∀ p r, Decidable (met' p r)] (h : ∀ p r, met p r ↔ met' p r) (max limit : Int)
    (p : Fin n) : Chosen met max limit p ↔ Chosen met' max limit p := by
  obtain rfl : met = met' := funext fun p => funext fun r => propext (h p r)
  obtain rfl : hd = hd' := Subsingleton.elim _ _
  exact Iff.rfl

def idsMeeting (r : Fin nres) : List Int :=
  ((List.finRange n).filter fun p => met p r).map fun p : Fin n => (p : Int)

theorem mem_idsMeeting {r : Fin nres} {p : Fin n} : (p : Int) ∈ idsMeeting met r ↔ met p r := by
  simp only [idsMeeting, List.mem_map, List.mem_filter, List.mem_finRange, true_and,
    decide_eq_true_eq]
  constructor
  · rintro ⟨q, hq, heq⟩
    obtain rfl : q = p := Fin.ext (Int.ofNat.inj heq)
    exact hq
  · exact fun hp => ⟨p, hp, rfl⟩

def tableOf : AffinityTable where
  n := n
  rankIds := (List.finRange nres).map (idsMeeting met)
  sorted := by
    intro row hrow
    obtain ⟨r, -, rfl⟩ := List.mem_map.mp hrow
    refine List.pairwise_map.mpr (List.Pairwise.filter _ ?_)
    exact (List.pairwise_lt_finRange n).imp fun hab => Int.ofNat_lt.mpr hab
  range := by
    intro row hrow id hid
    obtain ⟨r, -, rfl⟩ := List.mem_map.mp hrow
    obtain ⟨p, -, rfl⟩ := List.mem_map.mp hid
    omega

theorem nres_tableOf : (tableOf met).nres = nres := by
  rw [AffinityTable.nres, tableOf, List.length_map, List.length_finRange]

theorem covers_tableOf (p : Fin n) (r : Fin nres) :
    (tableOf met).Covers p (r.cast (nres_tableOf met).symm) ↔ met p r := by
  have hrow : (tableOf met).rankIds[r.cast (nres_tableOf met).symm] = idsMeeting met r := by
    simp only [tableOf, Fin.getElem_fin, List.getElem_map, List.getElem_finRange]
    rfl
  unfold AffinityTable.Covers
  rw [hrow]
  exact mem_idsMeeting met

theorem sharesTwo_tableOf (p : Fin n) : (tableOf met).SharesTwo p ↔ Torn met p := by
  constructor
  · rintro ⟨r, r', hne, h, h'⟩
    refine ⟨r.cast (nres_tableOf met), r'.cast (nres_tableOf met), ?_, ?_, ?_⟩
    · exact fun heq => hne (Fin.cast_injective _ heq)
    · exact (covers_tableOf met p _).mp h
    · exact (covers_tableOf met p _).mp h'
  · rintro ⟨r, r', hne, h, h'⟩
    refine ⟨_, _, ?_, (covers_tableOf met p r).mpr h, (covers_tableOf met p r').mpr h'⟩
    exact fun heq => hne (Fin.cast_injective _ heq)

theorem mem_sharedIds_tableOf {p : Fin n} : (p : Int) ∈ (tableOf met).sharedIds ↔ Torn met p := by
  rw [← sharesTwo_tableOf]
  exact (tableOf met).mem_sharedIds

/-- The ids that a loop counts before `p` are those of the processes ahead of it. -/
theorem length_ahead (r : Fin nres) (p : Fin n) :
    ((idsMeeting met r).filter fun x => x < (p : Int) ∧ x ∉ (tableOf met).sharedIds).length =
      (ahead met r p).card := by
  unfold idsMeeting ahead
  rw [List.filter_map, List.length_map, List.filter_filter]
  have hnodup : ((List.finRange n).filter fun q => decide (q < p ∧ met q r ∧ ¬Torn met q)).Nodup :=
    (List.nodup_finRange n).filter _
  have hcard : (Finset.univ.filter fun q => q < p ∧ met q r ∧ ¬Torn met q) =
      ((List.finRange n).filter fun q => decide (q < p ∧ met q r ∧ ¬Torn met q)).toFinset := by
    ext q
    simp
  rw [hcard, List.toFinset_card_of_nodup hnodup]
  congr 1
  refine List.filter_congr fun q _ => ?_
  simp only [Function.comp, mem_sharedIds_tableOf, Int.ofNat_lt, Fin.val_fin_lt]
  rw [← Bool.decide_and, decide_eq_decide]
  exact ⟨fun h => ⟨h.1.1, h.2, h.1.2⟩, fun h => ⟨⟨h.1, h.2.2⟩, h.2.1⟩⟩

/-- What the call answers on the table is the choice. -/
theorem selectFrom_tableOf (max : Int) (p : Fin n) :
    selectFrom (fun _ => true) n p max (tableOf met).rankIds =
      .ok (if Chosen met max (mulInt max nres) p then 1 else 0) := by
  have hspec := (tableOf met).selectFrom_spec p max
  have hall : (tableOf met).AllShared ↔ ∀ q, Torn met q :=
    forall_congr' (sharesTwo_tableOf met)
  have hsome : (∃ row ∈ (tableOf met).rankIds, Eligible (tableOf met).sharedIds max p row) ↔
      ¬Torn met p ∧ ∃ r, met p r ∧ ((ahead met r p).card : Int) < max := by
    have hrows : (tableOf met).rankIds = (List.finRange nres).map (idsMeeting met) := rfl
    simp only [hrows, List.mem_map, List.mem_finRange, true_and, exists_exists_eq_and]
    rw [← exists_and_left]
    refine exists_congr fun r => ?_
    rw [Eligible, length_ahead, mem_idsMeeting, mem_sharedIds_tableOf, and_left_comm]
  refine hspec.trans ?_
  rw [nres_tableOf]
  congr 1
  unfold Chosen
  by_cases h : ∀ q, Torn met q
  · simp only [if_pos h, if_pos (hall.mpr h)]
  · simp only [if_neg h, if_neg (mt hall.mp h), hsome]

end Choice

end LibQuo.AutoDistrib
