import Mathlib.Data.Finset.Card
import Mathlib.Data.List.Basic

/-!
Runs of equal elements in a list that need not be sorted. The number of runs before
the first `m` tells the elements of a list apart, whatever their order.
-/

namespace Runs

variable {α : Type} [DecidableEq α]

/-- How many runs end before `m` is met. -/
def before (m : α) : List α → Nat
  | [] => 0
  | [_] => 0
  | x :: y :: t => if x = m then 0 else before m (y :: t) + if x = y then 0 else 1

variable {m x a b : α} {t : List α}

@[simp] theorem before_self (m : α) (t : List α) : before m (m :: t) = 0 := by
  cases t with
  | nil => rfl
  | cons y t => simp [before]

/-- Behind a run of other elements there is something left. -/
theorem exists_dropWhile (hx : x ≠ m) (hm : m ∈ t) :
    ∃ y u, t.dropWhile (· == x) = y :: u ∧ m ∈ y :: u := by
  induction t with
  | nil => simp at hm
  | cons y t ih =>
    by_cases hy : y = x
    · subst hy
      obtain ⟨z, u, hd, hu⟩ := ih ((List.mem_cons.mp hm).resolve_left hx.symm)
      exact ⟨z, u, by simpa using hd, hu⟩
    · exact ⟨y, t, by simp [hy], hm⟩

/-- One run is left behind. -/
theorem before_dropWhile (hx : x ≠ m) (hm : m ∈ t) :
    before m (x :: t) = before m (t.dropWhile (· == x)) + 1 := by
  induction t with
  | nil => simp at hm
  | cons y t ih =>
    by_cases hy : y = x
    · subst hy
      have hm' : m ∈ t := (List.mem_cons.mp hm).resolve_left hx.symm
      rw [List.dropWhile_cons_of_pos (by simp), ← ih hm']
      simp [before, hx]
    · rw [List.dropWhile_cons_of_neg (by simpa using hy)]
      simp [before, hx, Ne.symm hy]

/-- Different elements are met behind different numbers of runs. -/
theorem before_inj {xs : List α} (ha : a ∈ xs) (hb : b ∈ xs) (h : before a xs = before b xs) :
    a = b := by
  induction xs with
  | nil => simp at ha
  | cons x t ih =>
    cases t with
    | nil =>
      obtain rfl : a = x := by simpa using ha
      obtain rfl : b = a := by simpa using hb
      rfl
    | cons y t =>
      by_cases hxa : x = a
      · subst hxa
        by_contra hne
        have hbt : b ∈ y :: t := (List.mem_cons.mp hb).resolve_left fun h => hne h.symm
        rw [before_self, before, if_neg hne] at h
        by_cases hxy : x = y
        · subst hxy
          exact hne (ih List.mem_cons_self hbt (by simpa using h))
        · simp [hxy] at h
      · by_cases hxb : x = b
        · subst hxb
          have hat : a ∈ y :: t := (List.mem_cons.mp ha).resolve_left fun h => hxa h.symm
          rw [before_self, before, if_neg hxa] at h
          by_cases hxy : x = y
          · subst hxy
            exact ih hat List.mem_cons_self (by simpa using h)
          · simp [hxy] at h
        · have hat := (List.mem_cons.mp ha).resolve_left (Ne.symm hxa)
          have hbt := (List.mem_cons.mp hb).resolve_left (Ne.symm hxb)
          rw [before, before, if_neg hxa, if_neg hxb] at h
          exact ih hat hbt (by omega)

/-- In an array sorted by a linear order, the runs before an element are the distinct
elements in front of it. -/
theorem before_eq_card {r : α → α → Prop} [DecidableRel r] {xs : List α} (hsort : xs.Pairwise r)
    (hanti : ∀ a ∈ xs, ∀ b ∈ xs, r a b → r b a → a = b) (hm : m ∈ xs) :
    before m xs = (xs.toFinset.filter fun v => v ≠ m ∧ r v m).card := by
  induction xs with
  | nil => simp at hm
  | cons x t ih =>
    obtain ⟨hx, ht⟩ := List.pairwise_cons.mp hsort
    by_cases hxm : x = m
    · subst hxm
      rw [before_self, eq_comm, Finset.card_eq_zero, Finset.filter_eq_empty_iff]
      rintro v hv ⟨hne, hvx⟩
      have hv : v ∈ x :: t := List.mem_toFinset.mp hv
      have hvt : v ∈ t := (List.mem_cons.mp hv).resolve_left hne
      exact hne (hanti v hv x List.mem_cons_self hvx (hx v hvt))
    · have hmt : m ∈ t := (List.mem_cons.mp hm).resolve_left (Ne.symm hxm)
      have ih := ih ht (fun a ha b hb => hanti a (List.mem_cons_of_mem x ha) b
        (List.mem_cons_of_mem x hb)) hmt
      cases t with
      | nil => simp at hmt
      | cons y t =>
        have hcons : (x :: y :: t).toFinset = insert x (y :: t).toFinset := List.toFinset_cons
        rw [before, if_neg hxm, ih, hcons]
        by_cases hxy : x = y
        · subst hxy
          rw [if_pos rfl, Finset.insert_eq_of_mem (by simp), Nat.add_zero]
        · have hnew : x ∉ (y :: t).toFinset := by
            intro hmem
            have hmem : x ∈ y :: t := List.mem_toFinset.mp hmem
            have hxt : x ∈ t := (List.mem_cons.mp hmem).resolve_left hxy
            have hy : y ∈ x :: y :: t := by simp
            exact hxy (hanti x List.mem_cons_self y hy (hx y List.mem_cons_self)
              ((List.pairwise_cons.mp ht).1 x hxt))
          rw [if_neg hxy, Finset.filter_insert, if_pos ⟨hxm, hx m hmt⟩,
            Finset.card_insert_of_notMem fun h => hnew (Finset.mem_filter.mp h).1]

/-- Sorted arrays rank their elements by the order. -/
theorem before_lt_before {r : α → α → Prop} [DecidableRel r] {xs : List α}
    (hsort : xs.Pairwise r) (hanti : ∀ a ∈ xs, ∀ b ∈ xs, r a b → r b a → a = b)
    (htrans : ∀ a ∈ xs, ∀ b ∈ xs, ∀ c ∈ xs, r a b → r b c → r a c)
    (ha : a ∈ xs) (hb : b ∈ xs) (hne : a ≠ b) (hab : r a b) : before a xs < before b xs := by
  rw [before_eq_card hsort hanti ha, before_eq_card hsort hanti hb]
  apply Finset.card_lt_card
  rw [Finset.ssubset_iff_of_subset]
  · exact ⟨a, by simp [ha, hne, hab], by simp⟩
  · intro v hv
    obtain ⟨hmem, hva, hrva⟩ := Finset.mem_filter.mp hv
    have hv : v ∈ xs := List.mem_toFinset.mp hmem
    refine Finset.mem_filter.mpr ⟨hmem, ?_, htrans v hv a ha b hb hrva hab⟩
    rintro rfl
    exact hne (hanti a ha v hb hab hrva)

end Runs
