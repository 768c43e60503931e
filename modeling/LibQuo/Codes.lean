import Mathlib.Algebra.Ring.Int.Defs
import Mathlib.Algebra.GroupWithZero.Nat
import Mathlib.Data.Int.Basic

/-! The return codes and enumerations of `quo.h`, and C integer arithmetic. -/

namespace LibQuo

/-- The `QUO_*` return codes, in the order of `quo.h`. -/
inductive Rc
  | success
  | successAlreadyDone
  | err
  | errSys
  | errOor
  | errInvldArg
  | errCallBeforeInit
  | errTopo
  | errMpi
  | errNotSupported
  | errPop
  | errNotFound
  deriving DecidableEq, Repr

def Rc.code : Rc → Int
  | .success => 0
  | .successAlreadyDone => 1
  | .err => 2
  | .errSys => 3
  | .errOor => 4
  | .errInvldArg => 5
  | .errCallBeforeInit => 6
  | .errTopo => 7
  | .errMpi => 8
  | .errNotSupported => 9
  | .errPop => 10
  | .errNotFound => 11

/-- A code that is not `QUO_SUCCESS`. -/
abbrev Failure := { rc : Rc // rc ≠ .success }

def Failure.code (e : Failure) : Int := e.val.code

theorem Failure.code_pos (e : Failure) : 0 < e.code := by
  obtain ⟨rc, h⟩ := e
  cases rc <;> simp [Failure.code, Rc.code] at h ⊢

def intMax : Int := 2 ^ 31 - 1

/-- What a 32-bit `int` keeps of `x`, as the hardware wraps it. -/
def wrapInt (x : Int) : Int := (BitVec.ofInt 32 x).toInt

theorem wrapInt_eq (x : Int) : wrapInt x = x.bmod (2 ^ 32) := BitVec.toInt_ofInt x

theorem wrapInt_range (x : Int) : -2 ^ 31 ≤ wrapInt x ∧ wrapInt x ≤ intMax := by
  rw [wrapInt_eq, Int.bmod_def, intMax]
  split <;> omega

theorem wrapInt_of_range {x : Int} (h₀ : -2 ^ 31 ≤ x) (h : x ≤ intMax) : wrapInt x = x := by
  unfold intMax at h
  rw [wrapInt_eq, Int.bmod_eq_of_le] <;> omega

theorem wrapInt_le {x : Int} (h : 0 ≤ x) : wrapInt x ≤ x := by
  rw [wrapInt_eq, Int.bmod_def]
  split <;> omega

/-- It does not matter whether a summand has been wrapped before. -/
theorem wrapInt_add_wrapInt_mul (a b c : Int) :
    wrapInt (a + wrapInt b * c) = wrapInt (a + b * c) := by
  simp only [wrapInt_eq]
  rw [Int.add_bmod, Int.mul_bmod, Int.bmod_bmod, ← Int.mul_bmod, ← Int.add_bmod]

/-- An `int` where a `size_t` is expected. -/
def toSize (x : Int) : Nat := (BitVec.ofInt 64 x).toNat

theorem toSize_eq (x : Int) : toSize x = (x % 2 ^ 64).toNat := by
  rw [toSize, BitVec.toNat_ofInt]
  rfl

theorem toSize_of_nonneg {x : Int} (h₀ : 0 ≤ x) (h : x ≤ intMax) : (toSize x : Int) = x := by
  unfold intMax at h
  rw [toSize_eq]
  omega

/-- A negative `int` becomes a huge size. -/
theorem toSize_of_neg {x : Int} (h : -2 ^ 31 ≤ x) (h₀ : x < 0) : 2 ^ 63 ≤ toSize x := by
  rw [toSize_eq]
  omega

/-- `a * b` in 32-bit `int`, as the hardware wraps it. -/
def mulInt (a b : Int) : Int := (a * b).bmod (2 ^ 32)

theorem mulInt_of_range {a b : Int} (h₀ : 0 ≤ a * b) (h : a * b ≤ intMax) :
    mulInt a b = a * b := by
  unfold mulInt intMax at *
  rw [Int.bmod_eq_of_le] <;> omega

end LibQuo
