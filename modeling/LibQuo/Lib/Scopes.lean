import Mathlib.Data.List.Basic

/-!
Code with exceptions that holds resources for the time of a scope. A resource is acquired at
the beginning of its scope, which may throw, and released at its end, however that is
reached; a release that throws ends the program.
-/

namespace Scopes

variable {α β σ : Type}

/-- Code over states `σ`, which it may look at to go on. -/
inductive Code (α σ : Type)
  | done
  | throw
  | seq (p q : Code α σ)
  | choose (f : σ → Code α σ)
  | tryCatch (p handler : Code α σ)
  | scope (a : α) (body : Code α σ)

/-- How code ends. -/
inductive Outcome
  | normal
  | thrown
  | terminated
  deriving DecidableEq, Repr

/-- What the two ends of a scope do, and whether they succeed. -/
structure Resource (α σ : Type) where
  acquire : α → σ → Bool × σ
  release : σ → Bool × σ

variable (res : Resource α σ)

def leave (outcome : Outcome) (s : σ) : Outcome × σ :=
  if outcome = .terminated then (.terminated, s)
  else
    let r := res.release s
    (if r.1 then outcome else .terminated, r.2)

def run : Code α σ → σ → Outcome × σ
  | .done, s => (.normal, s)
  | .throw, s => (.thrown, s)
  | .seq p q, s =>
    let r := run p s
    if r.1 = .normal then run q r.2 else r
  | .choose f, s => run (f s) s
  | .tryCatch p handler, s =>
    let r := run p s
    if r.1 = .thrown then run handler r.2 else r
  | .scope a body, s =>
    let r := res.acquire a s
    if r.1 then
      let e := run body r.2
      leave res e.1 e.2
    else (.thrown, r.2)

/-- In the states of `inv`, a resource is a stack: what is acquired is put on it, and what
is released is taken from it. -/
structure Stacked (res : Resource α σ) (inv : σ → Prop) (stack : σ → List β) : Prop where
  acquire_inv : ∀ a s, inv s → inv (res.acquire a s).2
  release_inv : ∀ s, inv s → inv (res.release s).2
  acquired : ∀ a s, inv s → (res.acquire a s).1 = true →
    ∃ x, stack (res.acquire a s).2 = stack s ++ [x]
  refused : ∀ a s, inv s → (res.acquire a s).1 = false → stack (res.acquire a s).2 = stack s
  released : ∀ s, inv s → (res.release s).1 = true →
    stack (res.release s).2 = (stack s).dropLast

variable {res} {inv : σ → Prop} {stack : σ → List β} {s : σ}

theorem leave_ne_terminated {outcome : Outcome} (h : (leave res outcome s).1 ≠ .terminated) :
    outcome ≠ .terminated ∧ (res.release s).1 = true ∧
      leave res outcome s = (outcome, (res.release s).2) := by
  unfold leave at h ⊢
  by_cases ho : outcome = .terminated
  · simp [ho] at h
  · simp only [if_neg ho] at h ⊢
    cases hrel : (res.release s).1 with
    | true => exact ⟨ho, rfl, rfl⟩
    | false => simp [hrel] at h

theorem Stacked.leave_inv (hs : Stacked res inv stack) {outcome : Outcome} (h : inv s) :
    inv (leave res outcome s).2 := by
  unfold leave
  split
  · exact h
  · exact hs.release_inv s h

/-- Code does not leave the invariant. -/
theorem Stacked.run_inv (hs : Stacked res inv stack) (p : Code α σ) (h : inv s) :
    inv (run res p s).2 := by
  induction p generalizing s with
  | done => exact h
  | throw => exact h
  | seq p q ihp ihq =>
    simp only [run]
    split
    · exact ihq (ihp h)
    · exact ihp h
  | choose f ih => exact ih s h
  | tryCatch p handler ihp ihh =>
    simp only [run]
    split
    · exact ihh (ihp h)
    · exact ihp h
  | scope a body ih =>
    have hacq := hs.acquire_inv a s h
    simp only [run]
    split
    · exact hs.leave_inv (ih hacq)
    · exact hacq

/-- **Balance.** Code that is not terminated leaves the stack as it has found it, whether or
not it throws. -/
theorem Stacked.run_stack (hs : Stacked res inv stack) (p : Code α σ) (h : inv s)
    (hend : (run res p s).1 ≠ .terminated) : stack (run res p s).2 = stack s := by
  induction p generalizing s with
  | done => rfl
  | throw => rfl
  | seq p q ihp ihq =>
    simp only [run] at hend ⊢
    split at hend
    case isTrue hnormal =>
      rw [if_pos hnormal, ihq (hs.run_inv p h) hend, ihp h (by simp [hnormal])]
    case isFalse hnormal =>
      rw [if_neg hnormal]
      exact ihp h hend
  | choose f ih => exact ih s h hend
  | tryCatch p handler ihp ihh =>
    simp only [run] at hend ⊢
    split at hend
    case isTrue hthrown =>
      rw [if_pos hthrown, ihh (hs.run_inv p h) hend, ihp h (by simp [hthrown])]
    case isFalse hthrown =>
      rw [if_neg hthrown]
      exact ihp h hend
  | scope a body ih =>
    simp only [run] at hend ⊢
    have hacq := hs.acquire_inv a s h
    cases hok : (res.acquire a s).1 with
    | true =>
      simp only [hok, if_true] at hend ⊢
      obtain ⟨hbody, hrel, heq⟩ := leave_ne_terminated hend
      obtain ⟨x, hx⟩ := hs.acquired a s h hok
      rw [heq, hs.released _ (hs.run_inv body hacq) hrel, ih hacq hbody, hx, List.dropLast_concat]
    | false => exact hs.refused a s h hok

/-- A scope that was entered and left by one release, its body in between having left the
stack as it was. -/
theorem Stacked.scope_cases (hs : Stacked res inv stack) {a : α} {body : Code α σ} (h : inv s)
    (hend : (run res (.scope a body) s).1 ≠ .terminated) :
    ((res.acquire a s).1 = false ∧ (run res (.scope a body) s).2 = (res.acquire a s).2) ∨
      ∃ t, (res.acquire a s).1 = true ∧ inv t ∧ stack t = stack (res.acquire a s).2 ∧
        (res.release t).1 = true ∧ (run res (.scope a body) s).2 = (res.release t).2 := by
  simp only [run] at hend ⊢
  have hacq := hs.acquire_inv a s h
  cases hok : (res.acquire a s).1 with
  | true =>
    simp only [hok, if_true] at hend ⊢
    obtain ⟨hbody, hrel, heq⟩ := leave_ne_terminated hend
    exact .inr ⟨_, trivial, hs.run_inv body hacq, hs.run_stack body hacq hbody, hrel, by rw [heq]⟩
  | false => exact .inl ⟨rfl, by simp⟩

/-- Code whose releases cannot fail while something is below them is not terminated. -/
theorem Stacked.run_ne_terminated (hs : Stacked res inv stack)
    (hrel : ∀ s, inv s → 2 ≤ (stack s).length → (res.release s).1 = true) (p : Code α σ)
    (h : inv s) (hne : stack s ≠ []) : (run res p s).1 ≠ .terminated := by
  induction p generalizing s with
  | done => simp [run]
  | throw => simp [run]
  | seq p q ihp ihq =>
    simp only [run]
    split
    · have hkept := hs.run_stack p h (ihp h hne)
      exact ihq (hs.run_inv p h) (by rwa [hkept])
    · exact ihp h hne
  | choose f ih => exact ih s h hne
  | tryCatch p handler ihp ihh =>
    simp only [run]
    split
    · have hkept := hs.run_stack p h (ihp h hne)
      exact ihh (hs.run_inv p h) (by rwa [hkept])
    · exact ihp h hne
  | scope a body ih =>
    simp only [run]
    have hacq := hs.acquire_inv a s h
    cases hok : (res.acquire a s).1 with
    | false => simp
    | true =>
      obtain ⟨x, hx⟩ := hs.acquired a s h hok
      have hpos : 0 < (stack s).length := List.length_pos_iff.mpr hne
      have hbody := ih hacq (by rw [hx]; simp)
      have hkept := hs.run_stack body hacq hbody
      have hlen : 2 ≤ (stack (run res body (res.acquire a s).2).2).length := by
        rw [hkept, hx, List.length_append, List.length_singleton]
        omega
      simp only [if_true, leave, if_neg hbody, hrel _ (hs.run_inv body hacq) hlen]
      exact hbody

end Scopes
