import LibQuo.Lib.Traced
import LibQuo.Nodes.Color

/-!
What `get_my_color` reads of the array that `qsort` leaves. The inner loop has no test of
its own index; it ends because the own number is still ahead of it.
-/

namespace LibQuo.Nodes
open CMem Traced

/-- `net_nums[i]`, with the index in the log. -/
def readNum (netNums : List UInt64) (i : Nat) : Traced Nat Int UInt64 := event i (load netNums i)

/-- The inner loop, with the indices that it reads. -/
def skipRunReads (netNums : List UInt64) (prevNum : UInt64) : Nat → Nat → Traced Nat Int Nat
  | 0, _ => lift (.error (.fault .noFuel))
  | fuel + 1, i => do
    let num ← readNum netNums i
    if num = prevNum then skipRunReads netNums prevNum fuel (i + 1) else return i

def colorLoopReads (netNums : List UInt64) (netNumLen : Nat) (myNetNum : UInt64) :
    Nat → Nat → Nat → UInt64 → Traced Nat Int Nat
  | 0, _, _, _ => lift (.error (.fault .noFuel))
  | fuel + 1, i, node, prevNum =>
    if i < netNumLen ∧ prevNum ≠ myNetNum then do
      let i ← skipRunReads netNums prevNum (netNumLen + 1) i
      let prevNum ← readNum netNums i
      colorLoopReads netNums netNumLen myNetNum fuel i (node + 1) prevNum
    else return node

def getMyColorReads (qsort : Qsort) (netNums : List UInt64) (netNumLen : Nat)
    (myNetNum : UInt64) : Traced Nat Int Nat := do
  let sorted := qsort.run cmpUli netNums
  let prevNum ← readNum sorted 0
  colorLoopReads sorted netNumLen myNetNum (netNumLen + 1) 0 0 prevNum

variable {nums : List UInt64} {prev my : UInt64} {len : Nat}

theorem skipRunReads_result (fuel i : Nat) :
    (skipRunReads nums prev fuel i).result = skipRun nums prev fuel i := by
  induction fuel generalizing i with
  | zero => rfl
  | succ fuel ih =>
    rw [skipRunReads, skipRun, result_bind]
    congr 1
    funext num
    split
    · exact ih (i + 1)
    · rfl

theorem colorLoopReads_result (fuel i node : Nat) (prev : UInt64) :
    (colorLoopReads nums len my fuel i node prev).result =
      colorLoop nums len my fuel i node prev := by
  induction fuel generalizing i node prev with
  | zero => rfl
  | succ fuel ih =>
    rw [colorLoopReads, colorLoop]
    split
    · simp only [result_bind, skipRunReads_result, ih]
      rfl
    · rfl

/-- The reads are those of the function itself. -/
theorem getMyColorReads_result (qsort : Qsort) (netNums : List UInt64) (netNumLen : Nat)
    (my : UInt64) : (getMyColorReads qsort netNums netNumLen my).result =
      getMyColor qsort netNums netNumLen my := by
  rw [getMyColorReads, getMyColor, result_bind]
  simp only [colorLoopReads_result]
  rfl

theorem readNum_keeps (i : Nat) : (readNum nums i).Keeps (· < nums.length) fun _ => True :=
  keeps_event fun _ h => ⟨trivial, lt_of_load_ok h⟩

theorem skipRunReads_keeps (fuel i : Nat) :
    (skipRunReads nums prev fuel i).Keeps (· < nums.length) fun _ => True := by
  induction fuel generalizing i with
  | zero => exact keeps_lift (by simp)
  | succ fuel ih =>
    apply (readNum_keeps i).bind
    intro num _
    split
    · exact ih (i + 1)
    · exact keeps_pure trivial

theorem colorLoopReads_keeps (fuel i node : Nat) (prev : UInt64) :
    (colorLoopReads nums len my fuel i node prev).Keeps (· < nums.length) fun _ => True := by
  induction fuel generalizing i node prev with
  | zero => exact keeps_lift (by simp)
  | succ fuel ih =>
    rw [colorLoopReads]
    split
    · apply (skipRunReads_keeps (len + 1) i).bind
      intro j _
      apply (readNum_keeps j).bind
      intro num _
      exact ih j (node + 1) num
    · exact keeps_pure trivial

/-- A call that does not fault has read below the length of the array. -/
theorem getMyColorReads_lt {qsort : Qsort} {netNums : List UInt64} {color : Nat}
    (h : getMyColor qsort netNums len my = .ok color) :
    ∀ i ∈ (getMyColorReads qsort netNums len my).log, i < netNums.length := by
  rw [← (qsort.perm cmpUli netNums).length_eq]
  have hkeeps : (getMyColorReads qsort netNums len my).Keeps
      (· < (qsort.run cmpUli netNums).length) fun _ => True :=
    (readNum_keeps 0).bind fun num _ => colorLoopReads_keeps (len + 1) 0 0 num
  exact (hkeeps.of_ok color ((getMyColorReads_result qsort netNums len my).trans h)).2

/-- Any permutation of an array may be what `qsort` leaves of it. -/
theorem exists_qsort {netNums arranged : List UInt64} (h : arranged.Perm netNums) :
    ∃ qsort : Qsort, qsort.run cmpUli netNums = arranged := by
  refine ⟨⟨fun _ xs => if xs = netNums then arranged else xs, fun _ xs => ?_⟩, if_pos rfl⟩
  split
  case isTrue hxs => exact hxs ▸ h
  case isFalse => exact List.Perm.refl xs

/-- Whatever permutation `qsort` leaves, `get_my_color` ends with a colour, has read below the
length of the array, and tells two net numbers of the array apart. -/
theorem getMyColor_safe {netNums arranged : List UInt64} (hperm : arranged.Perm netNums)
    {a b : UInt64} (ha : a ∈ netNums) (hb : b ∈ netNums) :
    (∃ qsort : Qsort, qsort.run cmpUli netNums = arranged) ∧
      ∃ colorA colorB : Nat, (colorA = colorB ↔ a = b) ∧
        ∀ qsort : Qsort, qsort.run cmpUli netNums = arranged →
          getMyColor qsort netNums netNums.length a = .ok colorA ∧
          getMyColor qsort netNums netNums.length b = .ok colorB ∧
          (getMyColorReads qsort netNums netNums.length a).result = .ok colorA ∧
          ∀ i ∈ (getMyColorReads qsort netNums netNums.length a).log, i < netNums.length := by
  refine ⟨exists_qsort hperm, Runs.before a arranged, Runs.before b arranged, ?_, ?_⟩
  · constructor
    · exact Runs.before_inj (hperm.mem_iff.mpr ha) (hperm.mem_iff.mpr hb)
    · rintro rfl
      rfl
  · rintro qsort rfl
    have hcolor := getMyColor_eq qsort ha
    exact ⟨hcolor, getMyColor_eq qsort hb, (getMyColorReads_result _ _ _ _).trans hcolor,
      getMyColorReads_lt hcolor⟩

/-- Equal numbers need not be neighbours. -/
theorem splitRun_safe : (∃ qsort : Qsort, qsort.run cmpUli [7, 7, 9] = [7, 9, 7]) ∧
    ∃ color7 color9 : Nat, (color7 = color9 ↔ (7 : UInt64) = 9) ∧
      ∀ qsort : Qsort, qsort.run cmpUli [7, 7, 9] = [7, 9, 7] →
        getMyColor qsort [7, 7, 9] 3 7 = .ok color7 ∧
        getMyColor qsort [7, 7, 9] 3 9 = .ok color9 ∧
        (getMyColorReads qsort [7, 7, 9] 3 7).result = .ok color7 ∧
        ∀ i ∈ (getMyColorReads qsort [7, 7, 9] 3 7).log, i < 3 :=
  @getMyColor_safe [7, 7, 9] [7, 9, 7] (by decide) 7 9 (by decide) (by decide)

end LibQuo.Nodes
