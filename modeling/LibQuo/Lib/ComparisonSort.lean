import Mathlib.Data.List.Perm.Basic

/-!
Comparators that answer with the sign of an integer, and what a sort that uses one may
rely on. Nothing is promised of a sort whose comparator contradicts itself on the
elements of its array.
-/

namespace ComparisonSort

variable {α : Type} {cmp : α → α → Int} {key : α → Nat} {xs : List α}

/-- `cmp` does not contradict itself on the elements of `xs`: it is a total preorder there. -/
def Consistent (cmp : α → α → Int) (xs : List α) : Prop :=
  (∀ a ∈ xs, ∀ b ∈ xs, cmp a b < 0 ↔ 0 < cmp b a) ∧
    ∀ a ∈ xs, ∀ b ∈ xs, ∀ c ∈ xs, cmp a b ≤ 0 → cmp b c ≤ 0 → cmp a c ≤ 0

instance : Decidable (Consistent cmp xs) := inferInstanceAs (Decidable (_ ∧ _))

/-- On the elements of `xs`, the sign of `cmp` is the order of the keys. -/
def Agrees (cmp : α → α → Int) (key : α → Nat) (xs : List α) : Prop :=
  ∀ a ∈ xs, ∀ b ∈ xs, (cmp a b < 0 ↔ key a < key b) ∧ (0 < cmp a b ↔ key b < key a)

theorem Agrees.nonpos_iff (h : Agrees cmp key xs) {a b : α} (ha : a ∈ xs) (hb : b ∈ xs) :
    cmp a b ≤ 0 ↔ key a ≤ key b := by
  have hpos := (h a ha b hb).2
  omega

theorem consistent_of_agrees (h : Agrees cmp key xs) : Consistent cmp xs := by
  constructor
  · intro a ha b hb
    rw [(h a ha b hb).1, (h b hb a ha).2]
  · intro a ha b hb c hc hab hbc
    rw [h.nonpos_iff ha hb] at hab
    rw [h.nonpos_iff hb hc] at hbc
    rw [h.nonpos_iff ha hc]
    exact Nat.le_trans hab hbc

/-- It is enough that a relation is total and transitive on the elements of the array. -/
theorem pairwise_mergeSort_of_mem {le : α → α → Bool}
    (htrans : ∀ a ∈ xs, ∀ b ∈ xs, ∀ c ∈ xs, le a b → le b c → le a c)
    (htotal : ∀ a ∈ xs, ∀ b ∈ xs, le a b || le b a) :
    (xs.mergeSort le).Pairwise fun a b => le a b := by
  have hattach : xs.mergeSort le =
      (xs.attach.mergeSort fun a b => le a.1 b.1).map Subtype.val := by
    rw [List.map_mergeSort (s := le) fun a _ b _ => rfl, List.attach_map_subtype_val]
  rw [hattach, List.pairwise_map]
  apply List.pairwise_mergeSort
  · intro a b c
    exact htrans a.1 a.2 b.1 b.2 c.1 c.2
  · intro a b
    exact htotal a.1 a.2 b.1 b.2

/-- The order of a sort that works against its caller: where the comparator is consistent it
follows it, but sorts ties by falling keys; elsewhere it sorts everything by falling keys. -/
def contrary (cmp : α → α → Int) (key : α → Nat) (xs : List α) (a b : α) : Bool :=
  if Consistent cmp xs then cmp a b < 0 ∨ (cmp a b = 0 ∧ key b ≤ key a) else key b ≤ key a

theorem contrary_of_consistent (h : Consistent cmp xs) (a b : α) :
    contrary cmp key xs a b ↔ cmp a b < 0 ∨ (cmp a b = 0 ∧ key b ≤ key a) := by
  rw [contrary, if_pos h, decide_eq_true_iff]

theorem contrary_of_not (h : ¬Consistent cmp xs) (a b : α) :
    contrary cmp key xs a b ↔ key b ≤ key a := by
  rw [contrary, if_neg h, decide_eq_true_iff]

theorem contrary_total {a b : α} (ha : a ∈ xs) (hb : b ∈ xs) :
    contrary cmp key xs a b || contrary cmp key xs b a := by
  rw [Bool.or_eq_true]
  by_cases h : Consistent cmp xs
  · rw [contrary_of_consistent h, contrary_of_consistent h]
    have hab := h.1 a ha b hb
    have hba := h.1 b hb a ha
    omega
  · rw [contrary_of_not h, contrary_of_not h]
    omega

theorem contrary_trans {a b c : α} (ha : a ∈ xs) (hb : b ∈ xs) (hc : c ∈ xs)
    (hab : contrary cmp key xs a b) (hbc : contrary cmp key xs b c) :
    contrary cmp key xs a c := by
  by_cases h : Consistent cmp xs
  · rw [contrary_of_consistent h] at hab hbc ⊢
    have hac := h.2 a ha b hb c hc (by omega) (by omega)
    -- equal ends are equal to whatever lies between them
    have hback := h.2 c hc a ha b hb
    have hback' := h.2 b hb c hc a ha
    have hswap := h.1 a ha c hc
    have hswap' := h.1 c hc a ha
    have hsb := h.1 a ha b hb
    have hsb' := h.1 b hb a ha
    have hsc := h.1 b hb c hc
    have hsc' := h.1 c hc b hb
    omega
  · rw [contrary_of_not h] at hab hbc ⊢
    omega

theorem contrary_antisymm (hkey : Function.Injective key) {a b : α} (ha : a ∈ xs) (hb : b ∈ xs)
    (hab : contrary cmp key xs a b) (hba : contrary cmp key xs b a) : a = b := by
  apply hkey
  by_cases h : Consistent cmp xs
  · rw [contrary_of_consistent h] at hab hba
    have hsb := h.1 a ha b hb
    have hsb' := h.1 b hb a ha
    omega
  · rw [contrary_of_not h] at hab hba
    omega

theorem contrary_pairwise : (xs.mergeSort (contrary cmp key xs)).Pairwise
    fun a b => contrary cmp key xs a b :=
  pairwise_mergeSort_of_mem (fun _ ha _ hb _ hc => contrary_trans ha hb hc)
    fun _ ha _ hb => contrary_total ha hb

/-- Where the comparator is consistent, its sign is respected. -/
theorem contrary_sorts (h : Consistent cmp xs) :
    (xs.mergeSort (contrary cmp key xs)).Pairwise fun a b => cmp a b ≤ 0 := by
  apply contrary_pairwise.imp
  intro a b hab
  rw [contrary_of_consistent h] at hab
  omega

/-- A larger key that the comparator does not put behind a smaller one goes in front of it. -/
theorem contrary_of_nonpos {a b : α} (hlt : key b < key a) (hcmp : cmp a b ≤ 0) :
    contrary cmp key xs a b := by
  by_cases h : Consistent cmp xs
  · rw [contrary_of_consistent h]
    omega
  · rw [contrary_of_not h]
    omega

end ComparisonSort
