import Mathlib.Algebra.Order.BigOperators.Group.Finset
import Mathlib.Combinatorics.Hall.Basic

/-!
Assignments with a capacity: every element of a finite set goes to a slot it
covers, and no slot receives more than `k` of them. Hall's theorem says exactly
when such an assignment exists.
-/

namespace Capacity

variable {α β : Type*} [DecidableEq β]

/-- Every element of `A` goes to a slot it covers, at most `k` to each. -/
def Fits (A : Finset α) (covers : α → β → Prop) (k : Nat) : Prop :=
  ∃ f : α → β, (∀ a ∈ A, covers a (f a)) ∧ ∀ b, (A.filter (f · = b)).card ≤ k

/-- Distinct ranks below `k` at every slot give an assignment. -/
theorem fits_of_rank {A : Finset α} {covers : α → β → Prop} {k : Nat} [Nonempty β]
    (ok : α → β → Prop) (rank : β → α → Nat)
    (h : ∀ a ∈ A, ∃ b, ok a b ∧ covers a b ∧ rank b a < k)
    (hinj : ∀ b, Set.InjOn (rank b) {a | ok a b}) : Fits A covers k := by
  classical
  choose! f hok hcov hlt using h
  refine ⟨f, hcov, fun b => ?_⟩
  have hmap : Set.MapsTo (rank b) (A.filter (f · = b)) (Finset.range k) := by
    intro a ha
    obtain ⟨haA, rfl⟩ := Finset.mem_filter.mp ha
    simpa using hlt a haA
  have hinj' : Set.InjOn (rank b) (A.filter (f · = b)) := by
    refine (hinj b).mono fun a ha => ?_
    obtain ⟨haA, rfl⟩ := Finset.mem_filter.mp ha
    exact hok a haA
  simpa using Finset.card_le_card_of_injOn _ hmap hinj'

variable [Fintype β]

/-- The slots that some element of `S` covers. -/
def covered (covers : α → β → Prop) [∀ a b, Decidable (covers a b)] (S : Finset α) : Finset β :=
  Finset.univ.filter fun b => ∃ a ∈ S, covers a b

/-- Hall's theorem with capacities. -/
theorem fits_iff_hall {A : Finset α} {covers : α → β → Prop} {k : Nat}
    [∀ a b, Decidable (covers a b)] [Nonempty β] :
    Fits A covers k ↔ ∀ S ⊆ A, S.card ≤ k * (covered covers S).card := by
  classical
  constructor
  · rintro ⟨f, hf, hk⟩ S hS
    have hmap : ∀ a ∈ S, f a ∈ covered covers S := fun a ha =>
      Finset.mem_filter.mpr ⟨Finset.mem_univ _, a, ha, hf a (hS ha)⟩
    rw [Finset.card_eq_sum_card_fiberwise hmap, mul_comm]
    refine (Finset.sum_le_card_nsmul _ _ k fun b _ => ?_).trans_eq (by simp)
    exact (Finset.card_le_card (Finset.filter_subset_filter _ hS)).trans (hk b)
  · intro h
    -- Hall's theorem over the `k` places of every slot
    let t : A → Finset (β × Fin k) := fun a =>
      (Finset.univ.filter fun b => covers a b) ×ˢ Finset.univ
    have hall : ∀ S : Finset A, S.card ≤ (S.biUnion t).card := by
      intro S
      have hS : S.biUnion t = covered covers (S.map (.subtype (· ∈ A))) ×ˢ Finset.univ := by
        ext ⟨b, i⟩
        simp [t, covered]
      have := h (S.map (.subtype (· ∈ A))) (by
        intro a ha
        obtain ⟨b, -, rfl⟩ := Finset.mem_map.mp ha
        exact b.2)
      rw [Finset.card_map] at this
      rw [hS, Finset.card_product]
      simpa [mul_comm] using this
    obtain ⟨g, hg, ht⟩ := (Finset.all_card_le_biUnion_card_iff_exists_injective t).mp hall
    let f : α → β := fun a => if ha : a ∈ A then (g ⟨a, ha⟩).1 else Classical.arbitrary β
    refine ⟨f, fun a ha => ?_, fun b => ?_⟩
    · have := ht ⟨a, ha⟩
      simp only [t, Finset.mem_product, Finset.mem_filter] at this
      simpa [f, ha] using this.1.2
    · let place : α → Nat := fun a => if ha : a ∈ A then (g ⟨a, ha⟩).2 else 0
      have hmap : Set.MapsTo place (A.filter (f · = b)) (Finset.range k) := by
        intro a ha
        have haA := (Finset.mem_filter.mp ha).1
        simp [place, haA]
      have hinj : Set.InjOn place (A.filter (f · = b)) := by
        intro a ha a' ha' heq
        obtain ⟨haA, hfa⟩ := Finset.mem_filter.mp ha
        obtain ⟨haA', hfa'⟩ := Finset.mem_filter.mp ha'
        simp only [f, haA, haA', dite_true] at hfa hfa'
        simp only [place, haA, haA', dite_true] at heq
        have := hg (Prod.ext (hfa.trans hfa'.symm) (Fin.ext heq))
        simpa using this
      simpa using Finset.card_le_card_of_injOn _ hmap hinj

end Capacity
