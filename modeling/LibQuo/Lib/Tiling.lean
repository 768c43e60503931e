import Mathlib.Order.CompletePartialOrder
import Mathlib.Algebra.BigOperators.Group.List.Basic
import Mathlib.Algebra.Order.SuccPred
import Mathlib.Data.Nat.SuccPred
import Mathlib.Order.Interval.Set.Disjoint
import Mathlib.Order.Interval.Set.Union
import Mathlib.Order.SuccPred.IntervalSucc

/-!
Pieces of given sizes laid out one after the other. The pieces do not overlap and
leave no gap, and a run of neighbours is laid out where its first piece begins.
-/

namespace Tiling

variable (xs : List Nat)

/-- Where the `k`-th piece begins. -/
def offset (k : Nat) : Nat := (xs.take k).sum

/-- The pieces `i, …, j - 1` together. -/
def extent (i j : Nat) : Nat := offset xs j - offset xs i

/-- The places of the `k`-th piece. -/
def tile (k : Nat) : Set Nat := Set.Ico (offset xs k) (offset xs (k + 1))

@[simp] theorem offset_zero : offset xs 0 = 0 := by simp [offset]

@[simp] theorem offset_length : offset xs xs.length = xs.sum := by simp [offset]

theorem offset_succ {k : Nat} (h : k < xs.length) : offset xs (k + 1) = offset xs k + xs[k] := by
  rw [offset, offset, List.take_succ_eq_append_getElem h, List.sum_append, List.sum_singleton]

theorem offset_mono : Monotone (offset xs) := by
  intro i j hij
  obtain ⟨k, rfl⟩ := Nat.exists_eq_add_of_le hij
  rw [offset, offset, List.take_add, List.sum_append]
  exact Nat.le_add_right _ _

theorem offset_le_sum {k : Nat} (h : k ≤ xs.length) : offset xs k ≤ xs.sum := by
  rw [← offset_length]
  exact offset_mono xs h

/-- Some piece reaches any bound that all pieces together reach. -/
theorem exists_offset_lt_le {m : Nat} (hm : 0 < m) (h : m ≤ xs.sum) :
    ∃ k, k < xs.length ∧ offset xs k < m ∧ m ≤ offset xs (k + 1) := by
  have hreach : ∃ k, m ≤ offset xs k := ⟨xs.length, by rwa [offset_length]⟩
  have hpos : Nat.find hreach ≠ 0 := by
    intro h₀
    have := Nat.find_spec hreach
    rw [h₀, offset_zero] at this
    omega
  obtain ⟨k, hk⟩ := Nat.exists_eq_succ_of_ne_zero hpos
  have hbefore : ¬m ≤ offset xs k := Nat.find_min hreach (by omega)
  have hle : Nat.find hreach ≤ xs.length := Nat.find_min' hreach (by rwa [offset_length])
  have hend : m ≤ offset xs (Nat.find hreach) := Nat.find_spec hreach
  rw [hk] at hend hle
  exact ⟨k, hle, Nat.not_le.mp hbefore, hend⟩

theorem offset_add_extent {i j : Nat} (h : i ≤ j) : offset xs i + extent xs i j = offset xs j :=
  Nat.add_sub_of_le (offset_mono xs h)

/-- Neighbouring runs join. -/
theorem extent_add_extent {i j k : Nat} (hij : i ≤ j) (hjk : j ≤ k) :
    extent xs i j + extent xs j k = extent xs i k := by
  have h₁ := offset_mono xs hij
  have h₂ := offset_mono xs hjk
  simp only [extent]
  omega

theorem extent_succ {i j : Nat} (hij : i ≤ j) (hj : j < xs.length) :
    extent xs i (j + 1) = extent xs i j + xs[j] := by
  rw [← extent_add_extent xs hij (Nat.le_succ j)]
  simp only [extent, Nat.succ_eq_add_one, offset_succ xs hj]
  omega

/-- **No overlap.** -/
theorem tile_disjoint {i j : Nat} (h : i ≠ j) : Disjoint (tile xs i) (tile xs j) :=
  (offset_mono xs).pairwise_disjoint_on_Ico_succ h

/-- **No gap.** -/
theorem biUnion_tile : ⋃ k ∈ Finset.range xs.length, tile xs k = Set.Ico 0 xs.sum := by
  apply Set.Subset.antisymm
  · intro x hx
    simp only [Set.mem_iUnion, Finset.mem_range] at hx
    obtain ⟨k, hk, -, hlt⟩ := hx
    exact ⟨Nat.zero_le x, hlt.trans_le (offset_le_sum xs hk)⟩
  · have := Ico_subset_biUnion_Ico xs.length (offset xs)
    rwa [offset_zero, offset_length] at this

end Tiling
