import LibQuo.Lib.CMem
import LibQuo.Lib.Runs

/-!
`get_my_color` of `quo-mpi.c`: the colour of a node is the number of runs of other
net numbers in front of its own, in the array that `qsort` leaves.
-/

namespace LibQuo.Nodes
open CMem

/-- `qsort` on an array of `unsigned long`: all that is known of it is that it permutes
the array. -/
structure Qsort where
  run : (UInt64 → UInt64 → Int32) → List UInt64 → List UInt64
  perm : ∀ cmp xs, (run cmp xs).Perm xs

instance : Inhabited Qsort :=
  ⟨fun cmp xs => xs.mergeSort fun a b => cmp a b ≤ 0, fun _ _ => List.mergeSort_perm _ _⟩

/-- `cmp_uli`: the difference, cut to an `int`. -/
def cmpUli (a b : UInt64) : Int32 := (a - b).toUInt32.toInt32

/-- `while (net_nums[i] == prev_num) ++i`, in at most `fuel` turns. -/
def skipRun (netNums : List UInt64) (prevNum : UInt64) : Nat → Nat → Except (Halt Int) Nat
  | 0, _ => .error (.fault .noFuel)
  | fuel + 1, i => do
    let num ← load netNums i
    if num = prevNum then skipRun netNums prevNum fuel (i + 1) else return i

/-- The outer loop, in at most `fuel` turns. -/
def colorLoop (netNums : List UInt64) (netNumLen : Nat) (myNetNum : UInt64) :
    Nat → Nat → Nat → UInt64 → Except (Halt Int) Nat
  | 0, _, _, _ => .error (.fault .noFuel)
  | fuel + 1, i, node, prevNum =>
    if i < netNumLen ∧ prevNum ≠ myNetNum then do
      let i ← skipRun netNums prevNum (netNumLen + 1) i
      let prevNum ← load netNums i
      colorLoop netNums netNumLen myNetNum fuel i (node + 1) prevNum
    else return node

def getMyColor (qsort : Qsort) (netNums : List UInt64) (netNumLen : Nat) (myNetNum : UInt64) :
    Except (Halt Int) Nat := do
  let sorted := qsort.run cmpUli netNums
  let prevNum ← load sorted 0
  colorLoop sorted netNumLen myNetNum (netNumLen + 1) 0 0 prevNum

variable {nums : List UInt64} {prev num : UInt64} {i fuel node : Nat}

theorem load_of_drop {t : List UInt64} (h : nums.drop i = num :: t) :
    (load nums i : Except (Halt Int) UInt64) = .ok num := by
  rw [load_eq_ok, ← List.head?_drop, h]
  rfl

theorem drop_succ_of_drop {t : List UInt64} (h : nums.drop i = num :: t) :
    nums.drop (i + 1) = t := by
  rw [← List.drop_drop, h]
  rfl

/-- The inner loop stops at the first other number, which has to be there. -/
theorem skipRun_eq {y : UInt64} {u : List UInt64} (hfuel : (nums.drop i).length < fuel)
    (hdrop : (nums.drop i).dropWhile (· == prev) = y :: u) :
    ∃ j, skipRun nums prev fuel i = .ok j ∧ nums.drop j = y :: u := by
  induction fuel generalizing i with
  | zero => simp at hfuel
  | succ fuel ih =>
    cases ht : nums.drop i with
    | nil => simp [ht] at hdrop
    | cons num t =>
      rw [ht] at hdrop hfuel
      simp only [skipRun, load_of_drop ht, ok_bind]
      by_cases hnum : num = prev
      · rw [if_pos hnum]
        rw [List.dropWhile_cons_of_pos (by simpa using hnum)] at hdrop
        rw [← drop_succ_of_drop ht] at hdrop hfuel
        exact ih (by simpa using hfuel) hdrop
      · rw [if_neg hnum]
        rw [List.dropWhile_cons_of_neg (by simpa using hnum)] at hdrop
        exact ⟨i, rfl, ht.trans hdrop⟩

/-- From the beginning of a run, the outer loop counts the runs up to the own number. -/
theorem colorLoop_eq {my : UInt64} {t : List UInt64} (hdrop : nums.drop i = prev :: t)
    (hmy : my ∈ prev :: t) (hfuel : (prev :: t).length < fuel) :
    colorLoop nums nums.length my fuel i node prev = .ok (node + Runs.before my (prev :: t)) := by
  induction fuel generalizing i node prev t with
  | zero => simp at hfuel
  | succ fuel ih =>
    have hi : i < nums.length := by
      by_contra hle
      rw [List.drop_eq_nil_of_le (Nat.not_lt.mp hle)] at hdrop
      simp at hdrop
    by_cases hprev : prev = my
    · subst hprev
      simp [colorLoop, Runs.before_self]
      rfl
    · have hmem : my ∈ t := (List.mem_cons.mp hmy).resolve_left (Ne.symm hprev)
      obtain ⟨y, u, hd, hu⟩ := Runs.exists_dropWhile hprev hmem
      have hrun : (nums.drop i).dropWhile (· == prev) = y :: u := by
        rw [hdrop, List.dropWhile_cons_of_pos (by simp)]
        exact hd
      have hlen : (nums.drop i).length < nums.length + 1 := by
        rw [List.length_drop]
        omega
      obtain ⟨j, hj, hdj⟩ := skipRun_eq hlen hrun
      have hshort : (y :: u).length ≤ t.length := by
        rw [← hd]
        exact (List.dropWhile_suffix _).length_le
      simp only [colorLoop, hi, hprev, ne_eq, not_false_eq_true, and_self, if_true, hj, ok_bind,
        load_of_drop hdj]
      rw [ih hdj hu (by simp at hfuel hshort ⊢; omega), Runs.before_dropWhile hprev hmem, hd]
      congr 1
      omega

/-- Without a fault, the colour is the number of runs in front of the own number. -/
theorem getMyColor_eq (qsort : Qsort) {netNums : List UInt64} {my : UInt64} (h : my ∈ netNums) :
    getMyColor qsort netNums netNums.length my =
      .ok (Runs.before my (qsort.run cmpUli netNums)) := by
  have hperm := qsort.perm cmpUli netNums
  have hmem : my ∈ qsort.run cmpUli netNums := hperm.mem_iff.mpr h
  simp only [getMyColor, ← hperm.length_eq]
  cases hsorted : qsort.run cmpUli netNums with
  | nil => simp [hsorted] at hmem
  | cons num t =>
    rw [hsorted] at hmem
    have hdrop : (num :: t).drop 0 = num :: t := rfl
    rw [load_of_drop hdrop, ok_bind, colorLoop_eq hdrop hmem (Nat.lt_succ_self _), Nat.zero_add]

end LibQuo.Nodes
