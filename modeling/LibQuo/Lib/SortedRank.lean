import Mathlib.Data.List.TakeWhile
import Mathlib.Order.Lattice

/-!
The rank of an element of a strictly increasing list: how many come before it.
-/

namespace SortedRank

variable {α : Type*} [LinearOrder α] {l : List α}

/-- What comes before an element is what is below it. -/
theorem takeWhile_ne_eq_filter_lt {x : α} (hl : l.Pairwise (· < ·)) (hx : x ∈ l) :
    l.takeWhile (· ≠ x) = l.filter (· < x) := by
  induction l with
  | nil => simp at hx
  | cons a t ih =>
    obtain ⟨ha, ht⟩ := List.pairwise_cons.mp hl
    by_cases hax : a = x
    · subst hax
      have hnone : (a :: t).filter (· < a) = [] := by
        rw [List.filter_eq_nil_iff]
        intro y hy
        rcases List.mem_cons.mp hy with rfl | hy
        · simp
        · simpa using (ha y hy).le
      rw [hnone, List.takeWhile_cons_of_neg (by simp)]
    · have hxt : x ∈ t := (List.mem_cons.mp hx).resolve_left fun h => hax h.symm
      rw [List.takeWhile_cons_of_pos (by simpa using hax),
        List.filter_cons_of_pos (by simpa using ha x hxt), ih ht hxt]

/-- The elements of rank below `k` are the first `k`. -/
theorem filter_rank_lt (hl : l.Pairwise (· < ·)) (k : Nat) :
    (l.filter fun x => (l.filter (· < x)).length < k) = l.take k := by
  induction l generalizing k with
  | nil => simp
  | cons a t ih =>
    obtain ⟨ha, ht⟩ := List.pairwise_cons.mp hl
    have hhead : ((a :: t).filter (· < a)).length = 0 := by
      rw [List.length_eq_zero_iff, List.filter_eq_nil_iff]
      intro y hy
      rcases List.mem_cons.mp hy with rfl | hy
      · simp
      · simpa using (ha y hy).le
    have htail (x : α) (hx : x ∈ t) :
        ((a :: t).filter (· < x)).length = (t.filter (· < x)).length + 1 := by
      rw [List.filter_cons_of_pos (by simpa using ha x hx), List.length_cons]
    cases k with
    | zero =>
      rw [List.take_zero, List.filter_eq_nil_iff]
      simp
    | succ k =>
      have hfirst : decide (((a :: t).filter (· < a)).length < k + 1) = true := by
        rw [hhead]
        simp
      rw [List.take_succ_cons, List.filter_cons, if_pos hfirst, ← ih ht k]
      congr 1
      refine List.filter_congr fun x hx => ?_
      rw [htail x hx]
      simp

end SortedRank
