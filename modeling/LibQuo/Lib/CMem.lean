import Mathlib.Data.List.Basic

/-!
C fragments over arrays whose every access is checked. A fragment ends with a
value, with an error code of its own, or with a fault: an access outside the
array, or a loop that used up the turns it was given. A theorem that a fragment
does not fault is its index safety and its termination.
-/

namespace CMem

/-- What C leaves undefined (`outOfBounds`), and a loop that does not end in the
turns it was given (`noFuel`). -/
inductive Fault
  | outOfBounds
  | noFuel
  deriving DecidableEq, Repr

/-- Why a fragment has no value: a fault, or an error code it returns. -/
inductive Halt (ε : Type)
  | fault (f : Fault)
  | code (e : ε)
  deriving DecidableEq, Repr

variable {ε α β : Type}

/-- `xs[i]`. -/
def load (xs : List α) (i : Nat) : Except (Halt ε) α :=
  match xs[i]? with
  | some x => .ok x
  | none => .error (.fault .outOfBounds)

/-- `xs[i] = x`. -/
def store (xs : List α) (i : Nat) (x : α) : Except (Halt ε) (List α) :=
  if i < xs.length then .ok (xs.set i x) else .error (.fault .outOfBounds)

/-- `xs[i]` for a signed index. -/
def loadInt (xs : List α) (i : Int) : Except (Halt ε) α :=
  if i < 0 then .error (.fault .outOfBounds) else load xs i.toNat

/-- `xs[i] = x` for a signed index. -/
def storeInt (xs : List α) (i : Int) (x : α) : Except (Halt ε) (List α) :=
  if i < 0 then .error (.fault .outOfBounds) else store xs i.toNat x

/-- The values of `i` in `for (int i = a; i < b; ++i)`. -/
def intRange (a b : Int) : List Int := (List.range (b - a).toNat).map fun k : Nat => a + (k : Int)

theorem intRange_self (a : Int) : intRange a a = [] := by simp [intRange]

theorem intRange_succ {a b : Nat} (h : a ≤ b) :
    intRange a ((b : Int) + 1) = intRange a b ++ [(b : Int)] := by
  have hlen : ((b : Int) + 1 - a).toNat = ((b : Int) - a).toNat + 1 := by omega
  have hlast : (a : Int) + (((b : Int) - a).toNat : Nat) = b := by omega
  rw [intRange, hlen, List.range_succ, List.map_append, List.map_singleton, hlast, intRange]

@[simp] theorem ok_bind (a : α) (f : α → Except (Halt ε) β) :
    (Except.ok a >>= f) = f a := rfl

@[simp] theorem error_bind (e : Halt ε) (f : α → Except (Halt ε) β) :
    ((Except.error e : Except (Halt ε) α) >>= f) = .error e := rfl

theorem bind_eq_ok {x : Except (Halt ε) α} {f : α → Except (Halt ε) β} {b : β} :
    (x >>= f) = .ok b ↔ ∃ a, x = .ok a ∧ f a = .ok b := by
  cases x with
  | error e => simp
  | ok a => simp

/-- A loop that collects results, none of which is missing. -/
theorem mapM_ok {f : α → Except (Halt ε) β} {g : α → β} {xs : List α}
    (h : ∀ x ∈ xs, f x = .ok (g x)) : xs.mapM f = .ok (xs.map g) := by
  induction xs with
  | nil => rfl
  | cons x xs ih =>
    rw [List.mapM_cons, h x List.mem_cons_self, ok_bind,
      ih fun y hy => h y (List.mem_cons_of_mem _ hy), ok_bind]
    rfl

theorem load_eq_ok {xs : List α} {i : Nat} {x : α} :
    (load xs i : Except (Halt ε) α) = .ok x ↔ xs[i]? = some x := by
  unfold load
  cases xs[i]? <;> simp

theorem load_of_lt {xs : List α} {i : Nat} (h : i < xs.length) :
    (load xs i : Except (Halt ε) α) = .ok xs[i] :=
  load_eq_ok.mpr (List.getElem?_eq_getElem h)

/-- A loop over the whole of an array folds its values. -/
theorem foldlM_load (f : β → α → β) (xs : List α) (b : β) :
    ((List.range xs.length).foldlM (fun b i => do
        let x ← load xs i
        .ok (f b x)) b : Except (Halt ε) β) = .ok (xs.foldl f b) := by
  have upTo : ∀ k ≤ xs.length, ((List.range k).foldlM (fun b i => do
      let x ← load xs i
      .ok (f b x)) b : Except (Halt ε) β) = .ok ((xs.take k).foldl f b) := by
    intro k hk
    induction k with
    | zero => rfl
    | succ k ih =>
      have hlt : k < xs.length := by omega
      rw [List.range_succ, List.foldlM_append, ih (by omega), ok_bind, List.foldlM_cons,
        load_of_lt hlt, ok_bind, ok_bind, List.take_succ_eq_append_getElem hlt, List.foldl_append]
      rfl
  rw [upTo xs.length (Nat.le_refl _), List.take_length]

theorem store_of_lt {xs : List α} {i : Nat} (h : i < xs.length) (x : α) :
    (store xs i x : Except (Halt ε) (List α)) = .ok (xs.set i x) := if_pos h

theorem loadInt_natCast {xs : List α} {i : Nat} (h : i < xs.length) :
    (loadInt xs (i : Int) : Except (Halt ε) α) = .ok xs[i] := by
  rw [loadInt, if_neg (by omega)]
  exact load_of_lt h

theorem storeInt_natCast {xs : List α} {i : Nat} (h : i < xs.length) (x : α) :
    (storeInt xs (i : Int) x : Except (Halt ε) (List α)) = .ok (xs.set i x) := by
  rw [storeInt, if_neg (by omega)]
  exact store_of_lt h x

end CMem
