import LibQuo.Lib.CMem

/-!
Fragments that log what they do. The value of such a fragment is that of the fragment
without the log, so whatever is known of the one carries over to the other; the log then
tells which elements were accessed, how often a cursor moved, and what the state was in
between.
-/

namespace CMem

/-- A fragment with its log, which is kept when the fragment halts. -/
structure Traced (ω ε α : Type) where
  log : List ω
  result : Except (Halt ε) α

namespace Traced

variable {ω ε α β : Type}

/-- A fragment that logs nothing. -/
def lift (x : Except (Halt ε) α) : Traced ω ε α := ⟨[], x⟩

/-- A fragment that is logged as one event, before it is run. -/
def event (e : ω) (x : Except (Halt ε) α) : Traced ω ε α := ⟨[e], x⟩

instance : Monad (Traced ω ε) where
  pure a := lift (.ok a)
  bind x f := match x.result with
    | .ok a => ⟨x.log ++ (f a).log, (f a).result⟩
    | .error e => ⟨x.log, .error e⟩

@[simp] theorem result_lift (x : Except (Halt ε) α) : (lift x : Traced ω ε α).result = x := rfl

@[simp] theorem result_event (e : ω) (x : Except (Halt ε) α) : (event e x).result = x := rfl

@[simp] theorem result_pure (a : α) : (pure a : Traced ω ε α).result = .ok a := rfl

@[simp] theorem result_bind (x : Traced ω ε α) (f : α → Traced ω ε β) :
    (x >>= f).result = (do (f (← x.result)).result) := by
  simp only [bind, Except.bind]
  cases x.result <;> rfl

@[simp] theorem log_lift (x : Except (Halt ε) α) : (lift x : Traced ω ε α).log = [] := rfl

@[simp] theorem log_pure (a : α) : (pure a : Traced ω ε α).log = [] := rfl

theorem lift_ok_bind (a : α) (f : α → Traced ω ε β) : (lift (.ok a) >>= f) = f a := rfl

theorem log_bind_ok {x : Traced ω ε α} {a : α} (h : x.result = .ok a)
    (f : α → Traced ω ε β) : (x >>= f).log = x.log ++ (f a).log := by
  simp only [bind, h]

/-- Runs `x`, and then logs an event about what `x` has logged. -/
def tally (x : Traced ω ε α) (e : List ω → ω) : Traced ω ε α := ⟨x.log ++ [e x.log], x.result⟩

@[simp] theorem result_tally (x : Traced ω ε α) (e : List ω → ω) :
    (x.tally e).result = x.result := rfl

theorem result_foldlM {ι : Type} (f : β → ι → Traced ω ε β) (xs : List ι) (b : β) :
    (xs.foldlM f b).result = xs.foldlM (fun b i => (f b i).result) b := by
  induction xs generalizing b with
  | nil => rfl
  | cons i xs ih =>
    rw [List.foldlM_cons, List.foldlM_cons, result_bind]
    congr 1
    funext b'
    exact ih b'

/-- If `x` has a value, `Q` holds of the value and of the log. -/
structure Post (x : Traced ω ε α) (Q : α → List ω → Prop) : Prop where
  of_ok : ∀ a, x.result = .ok a → Q a x.log

variable {x : Traced ω ε α} {f : α → Traced ω ε β} {Q Q' : α → List ω → Prop}
  {R : β → List ω → Prop}

theorem Post.imp (h : x.Post Q) (himp : ∀ a l, Q a l → Q' a l) : x.Post Q' :=
  ⟨fun a ha => himp a x.log (h.of_ok a ha)⟩

theorem post_lift {y : Except (Halt ε) α} (h : ∀ a, y = .ok a → Q a []) :
    (lift y : Traced ω ε α).Post Q := ⟨h⟩

theorem post_event {e : ω} {y : Except (Halt ε) α} (h : ∀ a, y = .ok a → Q a [e]) :
    (event e y).Post Q := ⟨h⟩

theorem post_pure {a : α} (h : Q a []) : (pure a : Traced ω ε α).Post Q := by
  constructor
  intro b hb
  obtain rfl : a = b := Except.ok.inj hb
  exact h

theorem Post.bind (hx : x.Post Q)
    (hf : ∀ a l, Q a l → (f a).Post fun b l' => R b (l ++ l')) : (x >>= f).Post R := by
  constructor
  intro b hb
  cases hres : x.result with
  | error e =>
    rw [result_bind, hres] at hb
    exact absurd hb (by simp)
  | ok a =>
    rw [result_bind, hres] at hb
    rw [log_bind_ok hres]
    exact (hf a x.log (hx.of_ok a hres)).of_ok b hb

theorem post_event_bind {e : ω} {y : Except (Halt ε) α}
    (hf : ∀ a, y = .ok a → (f a).Post fun b l => R b (e :: l)) : (event e y >>= f).Post R := by
  refine Post.bind (Q := fun a l => y = .ok a ∧ l = [e]) (post_event fun a ha => ⟨ha, rfl⟩) ?_
  rintro a l ⟨ha, rfl⟩
  exact hf a ha

theorem post_lift_bind {y : Except (Halt ε) α} (hf : ∀ a, y = .ok a → (f a).Post R) :
    (lift y >>= f).Post R := by
  refine Post.bind (Q := fun a l => y = .ok a ∧ l = []) (post_lift fun a ha => ⟨ha, rfl⟩) ?_
  rintro a l ⟨ha, rfl⟩
  exact hf a ha

theorem post_pure_bind {a : α} (hf : (f a).Post R) : (pure a >>= f).Post R :=
  post_lift_bind fun b hb => by
    obtain rfl : a = b := Except.ok.inj hb
    exact hf

theorem Post.tally {e : List ω → ω} {R : α → List ω → Prop} (h : x.Post Q)
    (himp : ∀ a l, Q a l → R a (l ++ [e l])) : (x.tally e).Post R :=
  ⟨fun a ha => himp a x.log (h.of_ok a ha)⟩

/-- Every event of the log meets `P`, and the value meets `Q`. -/
def Keeps (P : ω → Prop) (Q : α → Prop) (x : Traced ω ε α) : Prop :=
  x.Post fun a l => Q a ∧ ∀ e ∈ l, P e

variable {P : ω → Prop} {S : α → Prop} {T : β → Prop}

theorem keeps_lift_bind {y : Except (Halt ε) α} (hf : ∀ a, y = .ok a → (f a).Keeps P T) :
    (lift y >>= f).Keeps P T := post_lift_bind hf

theorem keeps_lift {y : Except (Halt ε) α} (h : ∀ a, y = .ok a → S a) :
    (lift y : Traced ω ε α).Keeps P S :=
  post_lift fun a ha => ⟨h a ha, by simp⟩

theorem keeps_event {e : ω} {y : Except (Halt ε) α} (h : ∀ a, y = .ok a → S a ∧ P e) :
    (event e y).Keeps P S :=
  post_event fun a ha => ⟨(h a ha).1, by simpa using (h a ha).2⟩

theorem keeps_pure {a : α} (h : S a) : (pure a : Traced ω ε α).Keeps P S :=
  post_pure ⟨h, by simp⟩

theorem Keeps.bind (hx : x.Keeps P S) (hf : ∀ a, S a → (f a).Keeps P T) :
    (x >>= f).Keeps P T := by
  apply Post.bind hx
  rintro a l ⟨ha, hl⟩
  apply (hf a ha).imp
  rintro b l' ⟨hb, hl'⟩
  refine ⟨hb, fun e he => ?_⟩
  rcases List.mem_append.mp he with he | he
  · exact hl e he
  · exact hl' e he

theorem keeps_foldlM {ι : Type} {g : β → ι → Traced ω ε β} {xs : List ι} {b : β}
    (hstep : ∀ i ∈ xs, ∀ b, T b → (g b i).Keeps P T) (hb : T b) : (xs.foldlM g b).Keeps P T := by
  induction xs generalizing b with
  | nil => exact keeps_pure hb
  | cons i xs ih =>
    rw [List.foldlM_cons]
    apply (hstep i List.mem_cons_self b hb).bind
    intro b' hb'
    exact ih (fun k hk => hstep k (List.mem_cons_of_mem i hk)) hb'

end Traced

theorem lt_of_load_ok {ε α : Type} {xs : List α} {i : Nat} {x : α}
    (h : (load xs i : Except (Halt ε) α) = .ok x) : i < xs.length :=
  (List.getElem?_eq_some_iff.mp (load_eq_ok.mp h)).1

theorem store_eq_ok {ε α : Type} {xs ys : List α} {i : Nat} {x : α} :
    (store xs i x : Except (Halt ε) (List α)) = .ok ys ↔ i < xs.length ∧ xs.set i x = ys := by
  rw [store]
  split
  case isTrue h => simp [h]
  case isFalse h => simp [h]

theorem mem_of_load_ok {ε α : Type} {xs : List α} {i : Nat} {x : α}
    (h : (load xs i : Except (Halt ε) α) = .ok x) : x ∈ xs :=
  List.mem_of_getElem? (load_eq_ok.mp h)

end CMem
