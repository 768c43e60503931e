import Mathlib.Algebra.Ring.Nat
import LibQuo.Lib.WordSet

/-!
The bitmaps of the bundled `hwloc` (`bitmap.c`), in which all sets of processing units are
kept: the array of words that is valid, how much of it is allocated, and what holds beyond.
Every operation says with `mem` whether it is given memory if it asks for some.
-/

namespace LibQuo
open WordSet

abbrev Ulong := BitVec 64

/-- One step of `hwloc_flsl_manual`: the bit is searched in the upper half, or in the
lower one. -/
def flslStep (mask : Ulong) (n : Nat) (xi : Ulong × Nat) : Ulong × Nat :=
  if xi.1 &&& mask ≠ 0#64 then (xi.1 >>> n, xi.2 + n) else xi

/-- `hwloc_flsl_manual`. -/
def flsl (x : Ulong) : Nat :=
  if x = 0#64 then 0
  else (flslStep 0x2#64 1 (flslStep 0xc#64 2 (flslStep 0xf0#64 4 (flslStep 0xff00#64 8
    (flslStep 0xffff0000#64 16 (flslStep 0xffffffff00000000#64 32 (x, 1))))))).2

/-- The search has come down to the lowest `n` bits of `x`, which is what is left of `x₀`. -/
structure Narrowed (x₀ : Ulong) (n : Nat) (xi : Ulong × Nat) : Prop where
  pos : 0 < xi.2
  shifted : ∀ k, xi.1.getLsbD k = x₀.getLsbD (xi.2 - 1 + k)
  below : ∀ k, n ≤ k → xi.1.getLsbD k = false
  nonzero : xi.1 ≠ 0#64

/-- A mask of the bits from `n` up to `2 * n`. -/
def UpperHalf (mask : Ulong) (n : Nat) : Prop :=
  ∀ k < 64, mask.getLsbD k = decide (n ≤ k ∧ k < n + n)

instance (mask : Ulong) (n : Nat) : Decidable (UpperHalf mask n) :=
  inferInstanceAs (Decidable (∀ k < 64, _))

theorem Narrowed.step {x₀ : Ulong} {xi : Ulong × Nat} (mask : Ulong) (n : Nat) (hn : n + n ≤ 64)
    (hmask : UpperHalf mask n) (h : Narrowed x₀ (n + n) xi) :
    Narrowed x₀ n (flslStep mask n xi) := by
  have hpos := h.pos
  unfold flslStep
  split
  case isTrue hne =>
    refine ⟨by simp only; omega, fun k => ?_, fun k hk => ?_, ?_⟩
    · rw [BitVec.getLsbD_ushiftRight, h.shifted]
      congr 1
      simp only
      omega
    · rw [BitVec.getLsbD_ushiftRight]
      exact h.below _ (by omega)
    · obtain ⟨k, hk, hbit⟩ := ne_zero_iff.mp hne
      rw [BitVec.getLsbD_and, Bool.and_eq_true, hmask k hk, decide_eq_true_iff] at hbit
      refine ne_zero_iff.mpr ⟨k - n, by omega, ?_⟩
      have hk' : n + (k - n) = k := by omega
      rw [BitVec.getLsbD_ushiftRight, hk']
      exact hbit.1
  case isFalse hzero =>
    refine ⟨hpos, h.shifted, fun k hk => ?_, h.nonzero⟩
    by_cases hhalf : k < n + n
    · have hbit := congrArg (fun v : Ulong => v.getLsbD k) (not_not.mp hzero)
      simpa [BitVec.getLsbD_and, hmask k (by omega), hk, hhalf] using hbit
    · exact h.below k (Nat.not_lt.mp hhalf)

theorem flsl_narrows {x : Ulong} (hx : x ≠ 0#64) : ∃ xi, Narrowed x 1 xi ∧ flsl x = xi.2 := by
  have h₀ : Narrowed x 64 (x, 1) :=
    ⟨Nat.one_pos, fun k => by simp, fun k hk => BitVec.getLsbD_of_ge x k hk, hx⟩
  have h₁ := h₀.step 0xffffffff00000000#64 32 (by decide) (by decide)
  have h₂ := h₁.step 0xffff0000#64 16 (by decide) (by decide)
  have h₃ := h₂.step 0xff00#64 8 (by decide) (by decide)
  have h₄ := h₃.step 0xf0#64 4 (by decide) (by decide)
  have h₅ := h₄.step 0xc#64 2 (by decide) (by decide)
  have h₆ := h₅.step 0x2#64 1 (by decide) (by decide)
  exact ⟨_, h₆, by rw [flsl, if_neg hx]⟩

/-- The search by halves finds the highest bit. -/
theorem flsl_findsLast : FindsLast flsl := by
  intro x hx
  obtain ⟨xi, hxi, hflsl⟩ := flsl_narrows hx
  have hlow : xi.1.getLsbD 0 = true := by
    obtain ⟨k, -, hbit⟩ := ne_zero_iff.mp hxi.nonzero
    by_cases hk : k = 0
    · rwa [hk] at hbit
    · rw [hxi.below k (by omega)] at hbit
      contradiction
  have htop : x.getLsbD (flsl x - 1) = true := by
    rw [hflsl, ← hlow, hxi.shifted, Nat.add_zero]
  refine ⟨htop, ?_, fun j hj => ?_⟩
  · by_contra hge
    rw [BitVec.getLsbD_of_ge _ _ (Nat.not_lt.mp hge)] at htop
    contradiction
  · have hj' : xi.2 - 1 + (j - (xi.2 - 1)) = j := by omega
    rw [← hj', ← hxi.shifted]
    exact hxi.below _ (by omega)

theorem toNat_lt_flsl (x : Ulong) : x.toNat < 2 ^ flsl x := by
  by_cases hx : x = 0#64
  · rw [hx]
    decide
  · obtain ⟨-, -, hhigh⟩ := flsl_findsLast x hx
    obtain ⟨xi, hxi, hflsl⟩ := flsl_narrows hx
    have hpos := hxi.pos
    apply Nat.lt_pow_two_of_testBit
    intro k hk
    exact hhigh k (by omega)

/-- `hwloc_bitmap_enlarge_by_ulongs`: how many words are allocated then. -/
def enlargeByUlongs (mem : Bool) (allocated neededCount : Nat) : Option Nat :=
  let tmp := 1 <<< flsl (BitVec.ofNat 64 (neededCount - 1))
  if allocated < tmp then if mem then some tmp else none else some allocated

/-- The next power of two holds what is needed. -/
theorem le_of_enlarge {mem : Bool} {allocated neededCount allocated' : Nat}
    (hbound : neededCount ≤ 2 ^ 31)
    (h : enlargeByUlongs mem allocated neededCount = some allocated') :
    neededCount ≤ allocated' := by
  have hpow : neededCount ≤ 1 <<< flsl (BitVec.ofNat 64 (neededCount - 1)) := by
    have hlt := toNat_lt_flsl (BitVec.ofNat 64 (neededCount - 1))
    rw [BitVec.toNat_ofNat, Nat.mod_eq_of_lt (by omega)] at hlt
    rw [Nat.one_shiftLeft]
    omega
  unfold enlargeByUlongs at h
  dsimp only at h
  split at h
  case isTrue =>
    split at h
    · exact Option.some.inj h ▸ hpow
    · simp at h
  case isFalse hle => exact Option.some.inj h ▸ hpow.trans (Nat.not_lt.mp hle)

/-- `struct hwloc_bitmap_s`. The words are those that are valid, so that their number is
`ulongs_count`; an `unsigned` shift has to be able to round it up. -/
structure Bitmap where
  ulongs : List Ulong
  ulongsAllocated : Nat
  infinite : Bool
  count_pos : 0 < ulongs.length
  count_le : ulongs.length ≤ ulongsAllocated
  count_bound : ulongs.length ≤ 2 ^ 31

namespace Bitmap

def subbitmapCpu (cpu : Nat) : Ulong := 1#64 <<< (cpu % 64)

def ulbitTo (bit : Nat) : Ulong := BitVec.allOnes 64 >>> (64 - 1 - bit)

def ulbitFrom (bit : Nat) : Ulong := BitVec.allOnes 64 <<< bit

def readulong (set : Bitmap) (i : Nat) : Ulong := word set.ulongs set.infinite i

def toInt (x : Nat) : Int := (x : Int).bmod (2 ^ 32)

/-- `hwloc_bitmap_alloc`, given memory for 512 bits. -/
def alloc : Bitmap := ⟨[0#64], 8, false, by decide, by decide, by decide⟩

/-- `hwloc_bitmap_reset_by_ulongs`, to as many words as `neededCount`, and the writes that
follow it: they leave `ulongs`, which may be fewer, and `infinite`. -/
def reset (mem : Bool) (set : Bitmap) (neededCount : Nat) (ulongs : List Ulong)
    (infinite : Bool) (hpos : 0 < ulongs.length) (hle : ulongs.length ≤ neededCount)
    (hbound : neededCount ≤ 2 ^ 31) : Option Bitmap :=
  match h : enlargeByUlongs mem set.ulongsAllocated neededCount with
  | none => none
  | some allocated => some ⟨ulongs, allocated, infinite, hpos,
      hle.trans (le_of_enlarge hbound h), hle.trans hbound⟩

/-- `hwloc_bitmap_realloc_by_ulongs`: new words are as `infinite` says. -/
def reallocByUlongs (mem : Bool) (set : Bitmap) (neededCount : Nat)
    (hbound : neededCount ≤ 2 ^ 31) : Option Bitmap :=
  if hle : neededCount ≤ set.ulongs.length then some set
  else set.reset mem neededCount
    (set.ulongs ++ List.replicate (neededCount - set.ulongs.length) (tailWord set.infinite))
    set.infinite (by rw [List.length_append]; exact Nat.add_pos_left set.count_pos _)
    (by rw [List.length_append, List.length_replicate]; omega) hbound

def dup (mem : Bool) (old : Bitmap) : Option Bitmap := if mem then some old else none

def copy (mem : Bool) (dst src : Bitmap) : Option Bitmap :=
  dst.reset mem src.ulongs.length src.ulongs src.infinite src.count_pos le_rfl src.count_bound

/-- `hwloc_bitmap_zero`; one word is always allocated. -/
def zero (set : Bitmap) : Bitmap :=
  ⟨[0#64], set.ulongsAllocated, false, by decide, set.count_pos.trans_le set.count_le, by decide⟩

def fill (set : Bitmap) : Bitmap :=
  ⟨[BitVec.allOnes 64], set.ulongsAllocated, true, by simp, set.count_pos.trans_le set.count_le,
    by simp⟩

/-- The functions that combine two bitmaps word by word into `res`. -/
def combineInto (mem : Bool) (res set1 set2 : Bitmap) (op : Ulong → Ulong → Ulong)
    (rest1 rest2 : Option (Ulong → Ulong)) (infinite : Bool) : Option Bitmap :=
  res.reset mem (max set1.ulongs.length set2.ulongs.length)
    (combine op rest1 rest2 set1.ulongs set2.ulongs) infinite
    ((Nat.lt_min.mpr ⟨set1.count_pos, set2.count_pos⟩).trans_le le_combine_length)
    combine_length_le (Nat.max_le.mpr ⟨set1.count_bound, set2.count_bound⟩)

def or (mem : Bool) (res set1 set2 : Bitmap) : Option Bitmap :=
  combineInto mem res set1 set2 (fun x y => x ||| y)
    (if set2.infinite then none else some id) (if set1.infinite then none else some id)
    (set1.infinite || set2.infinite)

def and (mem : Bool) (res set1 set2 : Bitmap) : Option Bitmap :=
  combineInto mem res set1 set2 (fun x y => x &&& y)
    (if set2.infinite then some id else none) (if set1.infinite then some id else none)
    (set1.infinite && set2.infinite)

def andnot (mem : Bool) (res set1 set2 : Bitmap) : Option Bitmap :=
  combineInto mem res set1 set2 (fun x y => x &&& ~~~y)
    (if set2.infinite then none else some id)
    (if set1.infinite then some fun y => ~~~y else none)
    (set1.infinite && !set2.infinite)

theorem index_bound (cpu : UInt32) : cpu.toNat / 64 + 1 ≤ 2 ^ 31 := by
  have hlt := cpu.toNat_lt
  omega

/-- Some words of a bitmap are changed in place. -/
def modify (set : Bitmap) (f : Nat → Ulong → Ulong) : Bitmap :=
  { set with
    ulongs := set.ulongs.mapIdx f
    count_pos := by rw [List.length_mapIdx]; exact set.count_pos
    count_le := by rw [List.length_mapIdx]; exact set.count_le
    count_bound := by rw [List.length_mapIdx]; exact set.count_bound }

def set (mem : Bool) (set : Bitmap) (cpu : UInt32) : Option Bitmap :=
  let index := cpu.toNat / 64
  if set.infinite ∧ set.ulongs.length * 64 ≤ cpu.toNat then some set
  else do
    let set ← set.reallocByUlongs mem (index + 1) (index_bound cpu)
    return set.modify fun i v => if i = index then v ||| subbitmapCpu cpu.toNat else v

/-- What a finite range sets in word `i`. -/
def setRangeWord (begincpu endcpu i : Nat) (v : Ulong) : Ulong :=
  let beginset := begincpu / 64
  let endset := endcpu / 64
  if beginset = endset then
    if i = beginset then v ||| (ulbitTo (endcpu % 64) &&& ulbitFrom (begincpu % 64)) else v
  else if i = beginset then v ||| ulbitFrom (begincpu % 64)
  else if i = endset then v ||| ulbitTo (endcpu % 64)
  else if beginset < i ∧ i < endset then BitVec.allOnes 64
  else v

/-- What an infinite range sets in word `i`. -/
def setFromWord (begincpu i : Nat) (v : Ulong) : Ulong :=
  if i = begincpu / 64 then v ||| ulbitFrom (begincpu % 64)
  else if begincpu / 64 < i then BitVec.allOnes 64
  else v

/-- The words from `begincpu` on are set, and what is behind them. -/
def setFrom (set : Bitmap) (begincpu : Nat) : Bitmap :=
  { set.modify (setFromWord begincpu) with infinite := true }

/-- `hwloc_bitmap_set_range`; the range that ends at `-1` is infinite. -/
def setRange (mem : Bool) (set : Bitmap) (begincpu : UInt32) (endcpu : Int32) : Option Bitmap :=
  if endcpu.toUInt32 < begincpu then some set
  else if set.infinite ∧ set.ulongs.length * 64 ≤ begincpu.toNat then some set
  else if endcpu = -1 then do
    let set ← set.reallocByUlongs mem (begincpu.toNat / 64 + 1) (index_bound begincpu)
    return set.setFrom begincpu.toNat
  else
    let last := if set.infinite ∧ set.ulongs.length * 64 ≤ endcpu.toUInt32.toNat then
      set.ulongs.length * 64 - 1 else endcpu.toUInt32.toNat
    do
      let set ← set.reallocByUlongs mem (last / 64 + 1) (by
        have hbound := set.count_bound
        have hlt := endcpu.toUInt32.toNat_lt
        simp only [last]
        split
        · omega
        · omega)
      return set.modify (setRangeWord begincpu.toNat last)

/-- The loop of `hwloc_bitmap_singlify`, with `found` at its end. -/
def singlifyWords (found : Bool) : List Ulong → List Ulong × Bool
  | [] => ([], found)
  | v :: vs =>
    let (v', found') := if found then (0#64, found)
      else if v ≠ 0#64 then (subbitmapCpu (ffs v - 1), true)
      else (v, found)
    let (vs', last) := singlifyWords found' vs
    (v' :: vs', last)

theorem singlifyWords_length (found : Bool) (vs : List Ulong) :
    (singlifyWords found vs).1.length = vs.length := by
  induction vs generalizing found with
  | nil => rfl
  | cons v vs ih => simp [singlifyWords, ih]

/-- `hwloc_bitmap_singlify`: its result, and the bitmap it leaves. -/
def singlify (mem : Bool) (set : Bitmap) : Bool × Bitmap :=
  let r := singlifyWords false set.ulongs
  let found := r.2
  let low : Bitmap :=
    { set with
      ulongs := r.1
      infinite := false
      count_pos := by rw [singlifyWords_length]; exact set.count_pos
      count_le := by rw [singlifyWords_length]; exact set.count_le
      count_bound := by rw [singlifyWords_length]; exact set.count_bound }
  if set.infinite ∧ ¬found then
    match low.set mem (UInt32.ofNat (set.ulongs.length * 64)) with
    | none => (false, low)
    | some set => (true, set)
  else (true, low)

def isset (set : Bitmap) (cpu : Nat) : Bool := set.readulong (cpu / 64) &&& subbitmapCpu cpu ≠ 0#64

def iszero (set : Bitmap) : Bool := !set.infinite && set.ulongs.all fun v => v = 0#64

def isequal (set1 set2 : Bitmap) : Bool :=
  let minCount := min set1.ulongs.length set2.ulongs.length
  ((set1.ulongs.zip set2.ulongs).all fun v => v.1 = v.2) &&
    ((set1.ulongs.drop minCount).all fun v => v = tailWord set2.infinite) &&
    ((set2.ulongs.drop minCount).all fun v => v = tailWord set1.infinite) &&
    set1.infinite == set2.infinite

def intersects (set1 set2 : Bitmap) : Bool :=
  let minCount := min set1.ulongs.length set2.ulongs.length
  ((set1.ulongs.zip set2.ulongs).any fun v => v.1 &&& v.2 ≠ 0#64) ||
    (set2.infinite && (set1.ulongs.drop minCount).any fun v => v ≠ 0#64) ||
    (set1.infinite && (set2.ulongs.drop minCount).any fun v => v ≠ 0#64) ||
    (set1.infinite && set2.infinite)

def isincluded (sub super : Bitmap) : Bool :=
  let minCount := min super.ulongs.length sub.ulongs.length
  ((super.ulongs.zip sub.ulongs).all fun v => v.1 = v.1 ||| v.2) &&
    (super.infinite || (sub.ulongs.drop minCount).all fun v => v = 0#64) &&
    (!sub.infinite || (super.ulongs.drop minCount).all fun v => v = BitVec.allOnes 64) &&
    (!sub.infinite || super.infinite)

def found : Option Nat → Int → Int
  | some cpu, _ => toInt cpu
  | none, other => other

def first (set : Bitmap) : Int :=
  found (firstIn set.readulong 0 set.ulongs.length)
    (if set.infinite then toInt (set.ulongs.length * 64) else -1)

def last (set : Bitmap) : Int :=
  if set.infinite then -1 else found (lastIn flsl set.readulong set.ulongs.length) (-1)

/-- `hwloc_bitmap_next` and `hwloc_bitmap_next_unset` on the words of `get`; `more` says
whether every number behind them is a hit. -/
def searchFrom (get : Nat → Ulong) (count : Nat) (more : Bool) (prevCpu : Int) : Int :=
  let i := ((prevCpu + 1) / 64).toNat
  if count ≤ i then if more then prevCpu + 1 else -1
  else
    let masked := fun k =>
      if 0 ≤ prevCpu ∧ prevCpu.toNat / 64 = k then get k &&& ~~~ulbitTo (prevCpu.toNat % 64)
      else get k
    found (firstIn masked i (count - i)) (if more then toInt (count * 64) else -1)

def next (set : Bitmap) (prevCpu : Int) : Int :=
  searchFrom set.readulong set.ulongs.length set.infinite prevCpu

def nextUnset (set : Bitmap) (prevCpu : Int) : Int :=
  searchFrom (fun k => ~~~set.readulong k) set.ulongs.length (!set.infinite) prevCpu

end Bitmap

end LibQuo
