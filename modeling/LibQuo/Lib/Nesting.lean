import Mathlib.Data.List.Basic

/-!
Runs of a labelled transition system some of whose steps enter and leave scopes, each
with its own stack. What is entered last is left first: such a run leaves every stack
as it has found it.
-/

namespace Nesting

variable {σ ε κ α : Type} {step : σ → ε → σ → Prop}

/-- A run, with the labels of its steps. -/
inductive Run (step : σ → ε → σ → Prop) : σ → List ε → σ → Prop
  | nil (s : σ) : Run step s [] s
  | cons {s t u : σ} {e : ε} {es : List ε} : step s e t → Run step t es u → Run step s (e :: es) u

theorem Run.split {s u : σ} {xs ys : List ε} (h : Run step s (xs ++ ys) u) :
    ∃ t, Run step s xs t ∧ Run step t ys u := by
  induction xs generalizing s with
  | nil => exact ⟨s, .nil s, h⟩
  | cons x xs ih =>
    cases h with
    | cons hs hr =>
      obtain ⟨t, hxs, hys⟩ := ih hr
      exact ⟨t, .cons hs hxs, hys⟩

/-- Where in a run a step is taken. -/
theorem Run.mem {s t : σ} {es : List ε} {e : ε} (h : Run step s es t) (he : e ∈ es) :
    ∃ u v xs ys, es = xs ++ e :: ys ∧ Run step s xs u ∧ step u e v ∧ Run step v ys t := by
  obtain ⟨xs, ys, rfl⟩ := List.append_of_mem he
  obtain ⟨u, hu, hr⟩ := h.split
  cases hr with
  | cons hs hr => exact ⟨u, _, xs, ys, rfl, hu, hs, hr⟩

/-- The states around two steps of a run, and around what is between them. -/
theorem Run.pair {s t : σ} {xs ys zs : List ε} {e e' : ε}
    (h : Run step s (xs ++ e :: (ys ++ e' :: zs)) t) :
    ∃ u v u' v', Run step s xs u ∧ step u e v ∧ Run step v ys u' ∧ step u' e' v' ∧
      Run step v' zs t := by
  obtain ⟨u, hxs, h⟩ := h.split
  cases h with
  | cons he h =>
    obtain ⟨u', hys, h⟩ := h.split
    cases h with
    | cons he' h => exact ⟨u, _, u', _, hxs, he, hys, he', h⟩

/-- What holds of every label of a run may be taken for a part of its steps. -/
theorem Run.restrict {P : ε → Prop} {s t : σ} {es : List ε} (h : Run step s es t)
    (hP : ∀ e ∈ es, P e) : Run (fun s e t => step s e t ∧ P e) s es t := by
  induction h with
  | nil s => exact .nil s
  | cons hs _ ih =>
    exact .cons ⟨hs, hP _ List.mem_cons_self⟩ (ih fun e he => hP e (List.mem_cons_of_mem _ he))

/-- What every step preserves holds at the end of a run. -/
theorem Run.invariant {I : σ → Prop} (hI : ∀ s e t, I s → step s e t → I t) {s t : σ}
    {xs : List ε} (h : Run step s xs t) (hs : I s) : I t := by
  induction h with
  | nil s => exact hs
  | cons hst _ ih => exact ih (hI _ _ _ hs hst)

/-- What a step does to the scopes. -/
inductive Event (κ : Type)
  | enter (k : κ)
  | leave (k : κ)
  | other
  deriving DecidableEq, Repr

/-- Every scope that is entered is left, the last one first. -/
inductive Nested : List (Event κ) → Prop
  | nil : Nested []
  | other {w : List (Event κ)} : Nested w → Nested (.other :: w)
  | scope (k : κ) {u w : List (Event κ)} : Nested u → Nested w →
      Nested (.enter k :: u ++ .leave k :: w)

/-- In the states of `inv`, entering pushes on the stack of the scope, leaving pops from
it, and no step touches another stack that holds something. -/
structure Stacked (step : σ → ε → σ → Prop) (event : ε → Event κ) (inv : σ → Prop)
    (stack : σ → κ → List α) : Prop where
  keeps : ∀ s e t, inv s → step s e t → inv t
  enter : ∀ s e t k, inv s → step s e t → event e = .enter k → ∃ x, stack t k = stack s k ++ [x]
  leave : ∀ s e t k, inv s → step s e t → event e = .leave k → stack t k = (stack s k).dropLast
  frame : ∀ s e t j, inv s → step s e t → event e ≠ .enter j → event e ≠ .leave j →
    stack s j ≠ [] → stack t j = stack s j

variable {event : ε → Event κ} {inv : σ → Prop} {stack : σ → κ → List α}

/-- A scope that is entered and left again leaves every stack as it was, if the part in
between does. -/
theorem Stacked.scope (h : Stacked step event inv stack) {s v x y : σ} {e e' : ε} {k j : κ}
    (hi : inv s) (hs : step s e v) (he : event e = .enter k) (hx : inv x) (hs' : step x e' y)
    (he' : event e' = .leave k) (hmid : stack v j ≠ [] → stack x j = stack v j)
    (hj : stack s j ≠ []) : stack y j = stack s j := by
  by_cases hjk : j = k
  · subst hjk
    obtain ⟨a, ha⟩ := h.enter _ _ _ _ hi hs he
    rw [h.leave _ _ _ _ hx hs' he', hmid (by simp [ha]), ha]
    simp
  · have hv : stack v j = stack s j := by
      refine h.frame _ _ _ j hi hs ?_ ?_ hj
      · simpa [he] using Ne.symm hjk
      · simp [he]
    have hxj : stack x j = stack s j := by rw [hmid (hv ▸ hj), hv]
    rw [← hxj]
    refine h.frame _ _ _ j hx hs' ?_ ?_ (by rwa [hxj])
    · simp [he']
    · simpa [he'] using Ne.symm hjk

/-- A nested run leaves every stack as it was. -/
theorem Stacked.nested (h : Stacked step event inv stack) {s t : σ} {es : List ε}
    (hr : Run step s es t) (hn : Nested (es.map event)) (hi : inv s) (j : κ)
    (hj : stack s j ≠ []) : stack t j = stack s j := by
  generalize hw : es.map event = w at hn
  induction hn generalizing s t es with
  | nil =>
    obtain rfl : es = [] := by simpa using hw
    cases hr
    rfl
  | other _ ih =>
    cases hr with
    | nil => simp at hw
    | @cons _ v _ e es hs hr =>
      rw [List.map_cons, List.cons.injEq] at hw
      obtain ⟨he, hes⟩ := hw
      have hv : stack v j = stack s j := h.frame _ _ _ j hi hs (by simp [he]) (by simp [he]) hj
      rw [ih hr (h.keeps _ _ _ hi hs) (hv ▸ hj) hes, hv]
  | scope k _ _ ihu ihw =>
    cases hr with
    | nil => simp at hw
    | @cons _ v _ e es hs hr =>
      rw [List.cons_append, List.map_cons, List.cons.injEq] at hw
      obtain ⟨he, hes⟩ := hw
      obtain ⟨es₁, es₂, rfl, hu, hrest⟩ := List.map_eq_append_iff.mp hes
      obtain ⟨x, hmid, hr⟩ := hr.split
      cases hr with
      | nil => simp at hrest
      | @cons _ y _ e' es₂ hs' hr =>
        rw [List.map_cons, List.cons.injEq] at hrest
        obtain ⟨he', hw⟩ := hrest
        have hv := h.keeps _ _ _ hi hs
        have hx := hmid.invariant h.keeps hv
        have hy : stack y j = stack s j :=
          h.scope hi hs he hx hs' he' (fun hne => ihu hmid hv hne hu) hj
        rw [ihw hr (h.keeps _ _ _ hx hs') (hy ▸ hj) hw, hy]

end Nesting
