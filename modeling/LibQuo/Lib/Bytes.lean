import LibQuo.Lib.CMem

/-!
Regions of memory as lists of bytes: `memmove` between two regions, with both ranges
checked, and arrays of values stored in a region. How one value is stored is a parameter.
-/

namespace Bytes
open CMem

abbrev Byte := BitVec 8

variable {α ε : Type} {size : Nat}

/-- How values are stored in `size` bytes each. -/
structure Layout (α : Type) (size : Nat) where
  enc : α → List Byte
  dec : List Byte → α
  length_enc : ∀ x, (enc x).length = size
  dec_enc : ∀ x, dec (enc x) = x

/-- `memmove(dst + dOff, src + sOff, n)`. -/
def memmove (dst : List Byte) (dOff : Nat) (src : List Byte) (sOff n : Nat) :
    Except (Halt ε) (List Byte) :=
  if dOff + n ≤ dst.length ∧ sOff + n ≤ src.length then
    .ok (dst.take dOff ++ (src.drop sOff).take n ++ dst.drop (dOff + n))
  else .error (.fault .outOfBounds)

/-- A write at a cursor: what is before it and what is after the written bytes stays. -/
theorem memmove_write {pre mid post src : List Byte} (h : mid.length = src.length) :
    (memmove (pre ++ mid ++ post) pre.length src 0 src.length : Except (Halt ε) (List Byte)) =
      .ok (pre ++ src ++ post) := by
  have hdst : pre.length + src.length ≤ (pre ++ mid ++ post).length := by
    simp only [List.length_append]
    omega
  have hpost : (pre ++ mid ++ post).drop (pre.length + src.length) = post := by
    rw [← h, ← List.length_append, List.drop_left]
  rw [memmove, if_pos ⟨hdst, by omega⟩, hpost, List.append_assoc pre mid, List.take_left,
    List.drop_zero, List.take_length]

/-- A read at a cursor fills a region of the same length. -/
theorem memmove_read {dst pre mid post : List Byte} (h : dst.length = mid.length) :
    (memmove dst 0 (pre ++ mid ++ post) pre.length mid.length : Except (Halt ε) (List Byte)) =
      .ok mid := by
  have hsrc : pre.length + mid.length ≤ (pre ++ mid ++ post).length := by
    simp only [List.length_append]
    omega
  have hdst : dst.drop (0 + mid.length) = [] := List.drop_eq_nil_of_le (by omega)
  rw [memmove, if_pos ⟨by omega, hsrc⟩, hdst, List.append_assoc pre mid, List.drop_left,
    List.take_left, List.take_zero, List.nil_append, List.append_nil]

namespace Layout

variable (lay : Layout α size)

def encAll (xs : List α) : List Byte := xs.flatMap lay.enc

def decAll : Nat → List Byte → List α
  | 0, _ => []
  | k + 1, bs => lay.dec (bs.take size) :: decAll k (bs.drop size)

theorem encAll_append (xs ys : List α) : lay.encAll (xs ++ ys) = lay.encAll xs ++ lay.encAll ys :=
  List.flatMap_append

theorem length_encAll (xs : List α) : (lay.encAll xs).length = size * xs.length := by
  induction xs with
  | nil => rfl
  | cons x xs ih =>
    have : lay.encAll (x :: xs) = lay.enc x ++ lay.encAll xs := rfl
    rw [this, List.length_append, lay.length_enc, ih, List.length_cons, Nat.mul_add, Nat.mul_one,
      Nat.add_comm]

/-- An array is read back as it was stored. -/
theorem decAll_encAll (xs : List α) : lay.decAll xs.length (lay.encAll xs) = xs := by
  induction xs with
  | nil => rfl
  | cons x xs ih =>
    have hcons : lay.encAll (x :: xs) = lay.enc x ++ lay.encAll xs := rfl
    have htake : (lay.encAll (x :: xs)).take size = lay.enc x := by
      rw [hcons, List.take_left' (lay.length_enc x)]
    have hdrop : (lay.encAll (x :: xs)).drop size = lay.encAll xs := by
      rw [hcons, List.drop_left' (lay.length_enc x)]
    rw [List.length_cons, decAll, htake, hdrop, lay.dec_enc, ih]

end Layout

/-- The four bytes of a 32-bit word, least significant first. -/
def littleEndian : Layout (BitVec 32) 4 where
  enc x := [x.extractLsb' 0 8, x.extractLsb' 8 8, x.extractLsb' 16 8, x.extractLsb' 24 8]
  dec
    | [a, b, c, d] => d ++ c ++ b ++ a
    | _ => 0
  length_enc _ := rfl
  dec_enc x := by
    have h₁ : x.extractLsb' 24 8 ++ x.extractLsb' 16 8 = x.extractLsb' 16 16 :=
      BitVec.extractLsb'_append_extractLsb'_eq_extractLsb' rfl
    have h₂ : x.extractLsb' 16 16 ++ x.extractLsb' 8 8 = x.extractLsb' 8 24 :=
      BitVec.extractLsb'_append_extractLsb'_eq_extractLsb' rfl
    have h₃ : x.extractLsb' 8 24 ++ x.extractLsb' 0 8 = x.extractLsb' 0 32 :=
      BitVec.extractLsb'_append_extractLsb'_eq_extractLsb' rfl
    show x.extractLsb' 24 8 ++ x.extractLsb' 16 8 ++ x.extractLsb' 8 8 ++ x.extractLsb' 0 8 = x
    rw [h₁, h₂, h₃]
    exact BitVec.extractLsb'_eq_self

end Bytes
