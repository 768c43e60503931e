import Mathlib.Data.Nat.Basic
import Mathlib.Data.List.Basic
import Mathlib.Order.Basic

/-!
Sets of natural numbers that are kept as words of `w` bits: bit `x % w` of word `x / w`
says whether `x` is in the set. Behind the last word that is stored, all words are the
same: empty or full. Operations on such sets go word by word, and searches look for the
first or last word that is not zero.
-/

namespace WordSet

variable {w : Nat}

def tailWord (inf : Bool) : BitVec w := if inf then BitVec.allOnes w else 0#w

def word (xs : List (BitVec w)) (inf : Bool) (i : Nat) : BitVec w := xs[i]?.getD (tailWord inf)

/-- The bit for `x` in a sequence of words. -/
def bit (get : Nat → BitVec w) (x : Nat) : Bool := (get (x / w)).getLsbD (x % w)

def mem (xs : List (BitVec w)) (inf : Bool) (x : Nat) : Bool := bit (word xs inf) x

def lowest (v : BitVec w) : Option Nat := (List.range w).find? fun k => v.getLsbD k

/-- `ffs`: the place of the lowest bit that is set, counted from one; zero if there is none. -/
def ffs (v : BitVec w) : Nat := (lowest v).elim 0 (· + 1)

/-- A search upwards in `n` words from word `i` on, with `ffs` in the first nonzero one. -/
def firstIn (get : Nat → BitVec w) (i : Nat) : Nat → Option Nat
  | 0 => none
  | n + 1 => if get i ≠ 0#w then some (ffs (get i) - 1 + w * i) else firstIn get (i + 1) n

/-- A search downwards in the first `n` words; `fls` is to find the highest bit, counted
from one. -/
def lastIn (fls : BitVec w → Nat) (get : Nat → BitVec w) : Nat → Option Nat
  | 0 => none
  | n + 1 => if get n ≠ 0#w then some (fls (get n) - 1 + w * n) else lastIn fls get n

/-- The words of a combination. Where one side has no words left, those of the other one
are taken as `rest` says, or dropped. -/
def combine (op : BitVec w → BitVec w → BitVec w) (rest₁ rest₂ : Option (BitVec w → BitVec w))
    (xs ys : List (BitVec w)) : List (BitVec w) :=
  List.zipWith op xs ys ++
    if ys.length < xs.length then rest₁.elim [] fun g => (xs.drop ys.length).map g
    else if xs.length < ys.length then rest₂.elim [] fun g => (ys.drop xs.length).map g
    else []

section Words

variable {xs ys : List (BitVec w)} {inf : Bool} {i : Nat}

theorem word_of_lt (h : i < xs.length) : word xs inf i = xs[i] := by
  rw [word, List.getElem?_eq_getElem h, Option.getD_some]

theorem word_of_le (h : xs.length ≤ i) : word xs inf i = tailWord inf := by
  rw [word, List.getElem?_eq_none h, Option.getD_none]

theorem word_append_of_lt (h : i < xs.length) : word (xs ++ ys) inf i = xs[i] := by
  rw [word, List.getElem?_append_left h, List.getElem?_eq_getElem h, Option.getD_some]

theorem word_append_of_le (h : xs.length ≤ i) :
    word (xs ++ ys) inf i = word ys inf (i - xs.length) := by
  rw [word, List.getElem?_append_right h, word]

theorem word_map_drop {g : BitVec w → BitVec w} {k : Nat} (hi : k + i < xs.length) :
    word ((xs.drop k).map g) inf i = g xs[k + i] := by
  rw [word, List.getElem?_map, List.getElem?_drop, List.getElem?_eq_getElem hi, Option.map_some,
    Option.getD_some]

theorem getLsbD_tailWord (inf : Bool) {k : Nat} (hk : k < w) :
    (tailWord inf : BitVec w).getLsbD k = inf := by
  cases inf with
  | true => simp [tailWord, hk]
  | false => simp [tailWord]

/-- `x` is behind the stored words. -/
theorem mem_of_le (hw : 0 < w) {x : Nat} (h : w * xs.length ≤ x) : mem xs inf x = inf := by
  have hi : xs.length ≤ x / w := (Nat.le_div_iff_mul_le hw).mpr (by rwa [Nat.mul_comm])
  rw [mem, bit, word_of_le hi, getLsbD_tailWord inf (Nat.mod_lt x hw)]

theorem bit_mul_add {get : Nat → BitVec w} {k : Nat} (hk : k < w) :
    bit get (w * i + k) = (get i).getLsbD k := by
  have hw : 0 < w := (Nat.zero_le k).trans_lt hk
  have hdiv : (w * i + k) / w = i := by
    rw [Nat.mul_add_div hw, Nat.div_eq_of_lt hk, Nat.add_zero]
  have hmod : (w * i + k) % w = k := by
    rw [Nat.mul_add_mod, Nat.mod_eq_of_lt hk]
  rw [bit, hdiv, hmod]

/-- Sequences of words with the same bits are the same. -/
theorem word_ext_iff {get get' : Nat → BitVec w} :
    (∀ x, bit get x = bit get' x) ↔ ∀ i, get i = get' i := by
  constructor
  · intro h i
    apply BitVec.eq_of_getLsbD_eq
    intro k hk
    rw [← bit_mul_add hk, ← bit_mul_add hk]
    exact h _
  · intro h x
    rw [bit, bit, h]

/-- An empty word has no bits, and any other one has. -/
theorem ne_zero_iff {v : BitVec w} : v ≠ 0#w ↔ ∃ k < w, v.getLsbD k = true := by
  constructor
  · intro hv
    by_contra hnone
    apply hv
    apply BitVec.eq_of_getLsbD_eq
    intro k hk
    rw [BitVec.getLsbD_zero, Bool.eq_false_iff]
    exact fun hbit => hnone ⟨k, hk, hbit⟩
  · rintro ⟨k, hk, hbit⟩ rfl
    simp at hbit

/-- A number and its place: word and bit. -/
theorem exists_place (hw : 0 < w) (x : Nat) : ∃ i k, k < w ∧ x = w * i + k :=
  ⟨x / w, x % w, Nat.mod_lt x hw, (Nat.div_add_mod x w).symm⟩

end Words

section Combine

variable {op : BitVec w → BitVec w → BitVec w} {rest₁ rest₂ : Option (BitVec w → BitVec w)}
  {xs ys : List (BitVec w)} {inf₁ inf₂ inf : Bool}

/-- How the rests have to be taken for a combination to be right on the words that only one
side stores: as the operation has them, or dropped where the operation is constant. -/
structure Extends (op : BitVec w → BitVec w → BitVec w) (inf₁ inf₂ inf : Bool)
    (rest₁ rest₂ : Option (BitVec w → BitVec w)) : Prop where
  tail : op (tailWord inf₁) (tailWord inf₂) = tailWord inf
  left : ∀ v, rest₁.elim (tailWord inf) (fun g => g v) = op v (tailWord inf₂)
  right : ∀ v, rest₂.elim (tailWord inf) (fun g => g v) = op (tailWord inf₁) v

theorem combine_length_le :
    (combine op rest₁ rest₂ xs ys).length ≤ max xs.length ys.length := by
  unfold combine
  rw [List.length_append, List.length_zipWith]
  split
  · cases rest₁ with
    | none =>
      rw [Option.elim_none, List.length_nil]
      omega
    | some g =>
      rw [Option.elim_some, List.length_map, List.length_drop]
      omega
  · split
    · cases rest₂ with
      | none =>
        rw [Option.elim_none, List.length_nil]
        omega
      | some g =>
        rw [Option.elim_some, List.length_map, List.length_drop]
        omega
    · rw [List.length_nil]
      omega

theorem le_combine_length :
    min xs.length ys.length ≤ (combine op rest₁ rest₂ xs ys).length := by
  rw [combine, List.length_append, List.length_zipWith]
  exact Nat.le_add_right _ _

/-- Word by word. -/
theorem word_combine (h : Extends op inf₁ inf₂ inf rest₁ rest₂) (i : Nat) :
    word (combine op rest₁ rest₂ xs ys) inf i = op (word xs inf₁ i) (word ys inf₂ i) := by
  have hzip : (List.zipWith op xs ys).length = min xs.length ys.length := List.length_zipWith
  by_cases hboth : i < min xs.length ys.length
  · have hx : i < xs.length := by omega
    have hy : i < ys.length := by omega
    rw [combine, word_append_of_lt (by rwa [hzip]), List.getElem_zipWith, word_of_lt hx,
      word_of_lt hy]
  · rw [combine, word_append_of_le (by rw [hzip]; omega), hzip]
    split
    case isTrue hlong =>
      rw [Nat.min_eq_right (Nat.le_of_lt hlong), @word_of_le _ ys _ _ (by omega)]
      by_cases hx : i < xs.length
      · have hleft := h.left xs[i]
        cases rest₁ with
        | none => rw [word_of_lt hx, ← hleft]; rfl
        | some g =>
          have hi : ys.length + (i - ys.length) < xs.length := by omega
          have hplace : ys.length + (i - ys.length) = i := by omega
          rw [Option.elim_some, word_map_drop hi, word_of_lt hx, ← hleft, Option.elim_some]
          congr 1
          simp only [hplace]
      · rw [@word_of_le _ xs _ _ (by omega), h.tail]
        cases rest₁ with
        | none => rfl
        | some g => exact word_of_le (by simp; omega)
    case isFalse hshort =>
      rw [Nat.min_eq_left (Nat.le_of_not_lt hshort), @word_of_le _ xs _ _ (by omega)]
      by_cases hy : i < ys.length
      · have hright := h.right ys[i]
        rw [if_pos (by omega)]
        cases rest₂ with
        | none => rw [word_of_lt hy, ← hright]; rfl
        | some g =>
          have hi : xs.length + (i - xs.length) < ys.length := by omega
          have hplace : xs.length + (i - xs.length) = i := by omega
          rw [Option.elim_some, word_map_drop hi, word_of_lt hy, ← hright, Option.elim_some]
          congr 1
          simp only [hplace]
      · rw [@word_of_le _ ys _ _ (by omega), h.tail]
        split
        · cases rest₂ with
          | none => rfl
          | some g => exact word_of_le (by simp; omega)
        · rfl

end Combine

section Compare

variable {xs ys : List (BitVec w)} {inf₁ inf₂ : Bool} {P : BitVec w → BitVec w → Prop}

theorem forall_mem_drop {Q : BitVec w → Prop} {k : Nat} :
    (∀ v ∈ xs.drop k, Q v) ↔ ∀ i, k ≤ i → ∀ hi : i < xs.length, Q xs[i] := by
  constructor
  · intro h i hki hi
    exact h _ (List.mem_drop_iff_getElem.mpr ⟨i - k, by omega, by congr 1; omega⟩)
  · intro h v hv
    obtain ⟨i, hi, rfl⟩ := List.mem_drop_iff_getElem.mp hv
    exact h _ (Nat.le_add_right k i) _

theorem forall_mem_zip : (∀ v ∈ xs.zip ys, P v.1 v.2) ↔
    ∀ i (hx : i < xs.length) (hy : i < ys.length), P xs[i] ys[i] := by
  constructor
  · intro h i hx hy
    have hi : i < (xs.zip ys).length := by
      rw [List.length_zip]
      omega
    have hv := h (xs.zip ys)[i] (List.getElem_mem hi)
    rwa [List.getElem_zip] at hv
  · intro h v hv
    obtain ⟨i, hi, rfl⟩ := List.getElem_of_mem hv
    rw [List.length_zip] at hi
    rw [List.getElem_zip]
    exact h i (by omega) (by omega)

/-- A comparison of two sets, word by word: where both have words, where only one has, and
behind them. -/
theorem forall_word_iff : (∀ i, P (word xs inf₁ i) (word ys inf₂ i)) ↔
    (∀ v ∈ xs.zip ys, P v.1 v.2) ∧
    (∀ v ∈ xs.drop (min xs.length ys.length), P v (tailWord inf₂)) ∧
    (∀ v ∈ ys.drop (min xs.length ys.length), P (tailWord inf₁) v) ∧
    P (tailWord inf₁) (tailWord inf₂) := by
  rw [forall_mem_zip, forall_mem_drop, forall_mem_drop]
  constructor
  · intro h
    refine ⟨fun i hx hy => ?_, fun i hle hx => ?_, fun i hle hy => ?_, ?_⟩
    · have hi := h i
      rwa [word_of_lt hx, word_of_lt hy] at hi
    · have hi := h i
      rwa [word_of_lt hx, word_of_le (by omega)] at hi
    · have hi := h i
      rwa [word_of_le (by omega), word_of_lt hy] at hi
    · have hi := h (max xs.length ys.length)
      rwa [word_of_le (Nat.le_max_left _ _), word_of_le (Nat.le_max_right _ _)] at hi
  · rintro ⟨hboth, hleft, hright, htail⟩ i
    by_cases hx : i < xs.length
    · by_cases hy : i < ys.length
      · rw [word_of_lt hx, word_of_lt hy]
        exact hboth i hx hy
      · rw [word_of_lt hx, word_of_le (Nat.not_lt.mp hy)]
        exact hleft i (by omega) hx
    · by_cases hy : i < ys.length
      · rw [word_of_le (Nat.not_lt.mp hx), word_of_lt hy]
        exact hright i (by omega) hy
      · rw [word_of_le (Nat.not_lt.mp hx), word_of_le (Nat.not_lt.mp hy)]
        exact htail

theorem tailWord_inj (hw : 0 < w) :
    (tailWord inf₁ : BitVec w) = tailWord inf₂ ↔ inf₁ = inf₂ := by
  constructor
  · intro h
    rw [← getLsbD_tailWord inf₁ hw, h, getLsbD_tailWord inf₂ hw]
  · rintro rfl
    rfl

theorem and_tailWord_eq_zero {v : BitVec w} (inf : Bool) :
    v &&& tailWord inf = 0#w ↔ inf = true → v = 0#w := by
  cases inf with
  | true => simp [tailWord]
  | false => simp [tailWord]

end Compare

section Search

variable {v : BitVec w} {get : Nat → BitVec w} {i n x : Nat}

theorem lowest_eq_some {k : Nat} : lowest v = some k ↔
    v.getLsbD k = true ∧ k < w ∧ ∀ j, j < k → v.getLsbD j = false := by
  rw [lowest, List.find?_range_eq_some]
  simp

theorem lowest_isSome (h : v ≠ 0#w) : ∃ k, lowest v = some k := by
  obtain ⟨k, hk, hbit⟩ := ne_zero_iff.mp h
  refine Option.isSome_iff_exists.mp (List.find?_isSome.mpr ⟨k, ?_, hbit⟩)
  exact List.mem_range.mpr hk

/-- In a word that is not zero, `ffs` is one more than the lowest bit. -/
theorem ffs_spec (h : v ≠ 0#w) : v.getLsbD (ffs v - 1) = true ∧ ffs v - 1 < w ∧
    ∀ j, j < ffs v - 1 → v.getLsbD j = false := by
  obtain ⟨k, hk⟩ := lowest_isSome h
  have hffs : ffs v = k + 1 := by rw [ffs, hk]; rfl
  rw [hffs, Nat.add_sub_cancel]
  exact lowest_eq_some.mp hk

/-- A word without the bit. -/
theorem bit_of_zero (hzero : get i = 0#w) {y : Nat} (hlo : w * i ≤ y)
    (hhi : y < w * (i + 1)) : bit get y = false := by
  have hk : y - w * i < w := by
    rw [Nat.mul_succ] at hhi
    omega
  have hy : y = w * i + (y - w * i) := by omega
  rw [hy, bit_mul_add hk, hzero, BitVec.getLsbD_zero]

theorem firstIn_none (h : firstIn get i n = none) {y : Nat} (hlo : w * i ≤ y)
    (hhi : y < w * (i + n)) : bit get y = false := by
  induction n generalizing i with
  | zero => exact absurd hhi (Nat.not_lt.mpr hlo)
  | succ n ih =>
    rw [firstIn] at h
    split at h
    case isTrue => simp at h
    case isFalse hzero =>
      by_cases hy : y < w * (i + 1)
      · exact bit_of_zero (not_not.mp hzero) hlo hy
      · refine ih h (Nat.not_lt.mp hy) ?_
        rwa [Nat.add_assoc, Nat.add_comm 1]

/-- What is found is the first one. -/
theorem firstIn_some (h : firstIn get i n = some x) :
    (w * i ≤ x ∧ x < w * (i + n)) ∧ bit get x = true ∧
      ∀ y, w * i ≤ y → y < x → bit get y = false := by
  induction n generalizing i with
  | zero => simp [firstIn] at h
  | succ n ih =>
    rw [firstIn] at h
    split at h
    case isTrue hne =>
      obtain ⟨hbit, hlt, hlow⟩ := ffs_spec hne
      obtain rfl := Option.some.inj h
      have hle : w * (i + 1) ≤ w * (i + (n + 1)) := Nat.mul_le_mul_left w (by omega)
      rw [Nat.mul_succ] at hle
      refine ⟨⟨by omega, by omega⟩, ?_, fun y hlo hhi => ?_⟩
      · rw [Nat.add_comm, bit_mul_add hlt, hbit]
      · have hy : y = w * i + (y - w * i) := by omega
        rw [hy, bit_mul_add (by omega)]
        exact hlow _ (by omega)
    case isFalse hzero =>
      obtain ⟨⟨hlo, hhi⟩, hbit, hfirst⟩ := ih h
      have hle : w * i ≤ w * (i + 1) := Nat.mul_le_mul_left w (by omega)
      refine ⟨⟨by omega, by rwa [Nat.add_assoc, Nat.add_comm 1] at hhi⟩, hbit, ?_⟩
      intro y hy hyx
      by_cases hword : y < w * (i + 1)
      · exact bit_of_zero (not_not.mp hzero) hy hword
      · exact hfirst y (Nat.not_lt.mp hword) hyx

/-- `fls` finds the highest bit of a word, counted from one. -/
def FindsLast (fls : BitVec w → Nat) : Prop :=
  ∀ v : BitVec w, v ≠ 0#w → v.getLsbD (fls v - 1) = true ∧ fls v - 1 < w ∧
    ∀ j, fls v - 1 < j → v.getLsbD j = false

variable {fls : BitVec w → Nat}

theorem lastIn_none (h : lastIn fls get n = none) {y : Nat} (hy : y < w * n) :
    bit get y = false := by
  induction n with
  | zero => simp at hy
  | succ n ih =>
    rw [lastIn] at h
    split at h
    case isTrue => simp at h
    case isFalse hzero =>
      by_cases hword : y < w * n
      · exact ih h hword
      · exact bit_of_zero (not_not.mp hzero) (Nat.not_lt.mp hword) hy

/-- What is found is the last one. -/
theorem lastIn_some (hfls : FindsLast fls) (h : lastIn fls get n = some x) :
    x < w * n ∧ bit get x = true ∧ ∀ y, x < y → y < w * n → bit get y = false := by
  induction n with
  | zero => simp [lastIn] at h
  | succ n ih =>
    rw [lastIn] at h
    split at h
    case isTrue hne =>
      obtain ⟨hbit, hlt, hhigh⟩ := hfls _ hne
      obtain rfl := Option.some.inj h
      rw [Nat.mul_succ]
      refine ⟨by omega, by rw [Nat.add_comm, bit_mul_add hlt, hbit], fun y hlo hhi => ?_⟩
      have hy : y = w * n + (y - w * n) := by omega
      rw [hy, bit_mul_add (by omega)]
      exact hhigh _ (by omega)
    case isFalse hzero =>
      obtain ⟨hlt, hbit, hlast⟩ := ih h
      refine ⟨?_, hbit, fun y hlo hhi => ?_⟩
      · rw [Nat.mul_succ]
        omega
      · by_cases hword : y < w * n
        · exact hlast y hlo hword
        · exact bit_of_zero (not_not.mp hzero) (Nat.not_lt.mp hword) hhi

end Search

end WordSet
