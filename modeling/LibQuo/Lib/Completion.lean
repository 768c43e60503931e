import LibQuo.Lib.Stranding
import Mathlib.Algebra.BigOperators.Group.Finset.Basic
import Mathlib.Algebra.Order.BigOperators.Group.Finset

/-!
How runs end. Every step of a process uses up some of its script, so that a run has only so
many of them; and a process that can no longer move has returned, or waits for one that has
failed.
-/

namespace Spmd

variable {n : Nat} {Act Coll Chan Loc World Val ε : Type} [DecidableEq Chan]
variable {P : Protocol n Act Coll Chan Loc World Val ε}
variable {s t u : Group n Act Coll Loc World Val ε}

def CanMove (P : Protocol n Act Coll Chan Loc World Val ε)
    (s : Group n Act Coll Loc World Val ε) (p : Fin n) : Prop :=
  ∃ t, Step P s t ∧ t.proc p ≠ s.proc p

def AtRest (P : Protocol n Act Coll Chan Loc World Val ε)
    (s : Group n Act Coll Loc World Val ε) : Prop :=
  ∀ p, ¬CanMove P s p

/-- A run from the beginning, with the number of its steps that are steps of processes. -/
inductive Run (P : Protocol n Act Coll Chan Loc World Val ε) :
    Nat → Group n Act Coll Loc World Val ε → Prop
  | initial : Run P 0 (initial P)
  | move {k s t p} : Run P k s → Step P s t → t.proc p ≠ s.proc p → Run P (k + 1) t
  | still {k s t} : Run P k s → Step P s t → t.proc = s.proc → Run P k t

theorem Run.reachable {k : Nat} (h : Run P k s) : Reachable P s := by
  induction h with
  | initial => exact .initial
  | move _ hs _ ih => exact ih.step hs
  | still _ hs _ ih => exact ih.step hs

/-- Every reachable state is the end of such a run. -/
theorem Reachable.run (h : Reachable P s) : ∃ k, Run P k s := by
  refine h.invariant (I := fun s => ∃ k, Run P k s) ⟨0, .initial⟩ ?_
  rintro s t - ⟨k, hk⟩ hs
  by_cases hmove : t.proc = s.proc
  · exact ⟨k, .still hk hs hmove⟩
  · obtain ⟨p, hp⟩ := Function.ne_iff.mp hmove
    exact ⟨k + 1, .move hk hs hp⟩

/-- Whoever is behind an action has been about to execute it. -/
theorem Reachable.came_by (h : Reachable P s) {p : Fin n} {a : Act} {rest : List (Instr Act Coll)}
    (hscript : .act a :: rest <:+ P.script p) (hpast : ¬.act a :: rest <:+ (s.proc p).todo) :
    ∃ t loc, Reachable P t ∧ t.proc p = ⟨.act a :: rest, false, loc, none⟩ := by
  refine (h.invariant (I := fun s => .act a :: rest <:+ (s.proc p).todo ∨
    ∃ t loc, Reachable P t ∧ t.proc p = ⟨.act a :: rest, false, loc, none⟩) (.inl hscript)
    ?_).resolve_left hpast
  rintro s t hr (hsuf | hcame) hs
  · cases hs with
    | @act q b rest' loc loc' w hq _ =>
      by_cases hpq : p = q
      · subst hpq
        rw [hq] at hsuf
        rcases List.suffix_cons_iff.mp hsuf with heq | hsuf
        · obtain ⟨hb, rfl⟩ := List.cons.inj heq
          exact .inr ⟨s, loc, hr, by rw [hq, hb]⟩
        · exact .inl (by simpa using hsuf)
      · exact .inl (by simpa [hpq] using hsuf)
    | @fail q b rest' loc e w hq _ =>
      by_cases hpq : p = q
      · subst hpq
        rw [hq] at hsuf
        exact .inl (by simpa using hsuf)
      · exact .inl (by simpa [hpq] using hsuf)
    | @enter q c rest' loc hq =>
      by_cases hpq : p = q
      · subst hpq
        rw [hq] at hsuf
        exact .inl (by simpa using hsuf)
      · exact .inl (by simpa [hpq] using hsuf)
    | @leave q c rest' loc hq _ =>
      by_cases hpq : p = q
      · subst hpq
        rw [hq] at hsuf
        rcases List.suffix_cons_iff.mp hsuf with heq | hsuf
        · exact absurd (List.cons.inj heq).1 (by simp)
        · exact .inl (by simpa using hsuf)
      · exact .inl (by simpa [hpq] using hsuf)
    | idle _ _ => exact .inl hsuf
  · exact .inr hcame

/-! ## The number of steps -/

/-- The steps that a process has before it: two for each entry of its script, and one in
which it may fail. -/
def work (pr : Proc Act Coll Loc ε) : Nat :=
  if pr.failed.isSome then 0
  else 2 * pr.todo.length + 1 - if pr.inside then 1 else 0

/-- A step of a process takes one of its own away, and none of another. -/
theorem work_step (hs : Step P s t) : t.proc = s.proc ∨
    ∃ p, work (t.proc p) < work (s.proc p) ∧ ∀ q, q ≠ p → t.proc q = s.proc q := by
  cases hs with
  | @act p a rest loc loc' w hp _ =>
    refine .inr ⟨p, ?_, fun q hq => Function.update_of_ne hq _ _⟩
    rw [hp]
    simp [work]
  | @fail p a rest loc e w hp _ =>
    refine .inr ⟨p, ?_, fun q hq => Function.update_of_ne hq _ _⟩
    rw [hp]
    simp [work]
  | @enter p c rest loc hp =>
    refine .inr ⟨p, ?_, fun q hq => Function.update_of_ne hq _ _⟩
    rw [hp]
    simp [work]
  | @leave p c rest loc hp _ =>
    refine .inr ⟨p, ?_, fun q hq => Function.update_of_ne hq _ _⟩
    rw [hp]
    simp [work]
    omega
  | idle _ _ => exact .inl rfl

def totalWork (s : Group n Act Coll Loc World Val ε) : Nat := ∑ p, work (s.proc p)

theorem totalWork_step (hs : Step P s t) :
    t.proc = s.proc ∨ totalWork t < totalWork s := by
  refine (work_step hs).imp_right ?_
  rintro ⟨p, hlt, hother⟩
  refine Finset.sum_lt_sum (fun q _ => ?_) ⟨p, Finset.mem_univ p, hlt⟩
  by_cases hq : q = p
  · rw [hq]
    exact hlt.le
  · rw [hother q hq]

/-- A run has at most two steps for each entry of a script, and one more for each process. -/
theorem Run.steps_le {k : Nat} (h : Run P k s) :
    k + totalWork s ≤ ∑ p, (2 * (P.script p).length + 1) := by
  induction h with
  | initial => simp [totalWork, work, Spmd.initial]
  | @move k s t p _ hs hmove ih =>
    rcases totalWork_step hs with heq | hlt
    · exact absurd (congrFun heq p) hmove
    · omega
  | @still k s t _ _ heq ih =>
    have hsame : totalWork t = totalWork s := by rw [totalWork, heq, totalWork]
    omega

/-- From every state some run comes to rest. -/
theorem exists_atRest (s : Group n Act Coll Loc World Val ε) : ∃ t, Steps P s t ∧ AtRest P t := by
  induction hwork : totalWork s using Nat.strongRecOn generalizing s with
  | ind m ih =>
    by_cases hrest : AtRest P s
    · exact ⟨s, .refl, hrest⟩
    · simp only [AtRest, CanMove, not_forall, not_not] at hrest
      obtain ⟨p, t, hs, hp⟩ := hrest
      rcases totalWork_step hs with heq | hlt
      · exact absurd (congrFun heq p) hp
      · obtain ⟨u, hu, hrest⟩ := ih _ (hwork ▸ hlt) t rfl
        exact ⟨u, .head hs hu, hrest⟩

/-! ## Who is at rest -/

/-- A process in the course of its script can move, unless it is inside of a collective that
it may not leave. -/
theorem canMove_or {p : Fin n} {i : Instr Act Coll} {rest : List (Instr Act Coll)} {inside : Bool}
    {loc : Loc} (hp : s.proc p = ⟨i :: rest, inside, loc, none⟩)
    (hin : inside = true → ∃ c, i = .coll c) : CanMove P s p ∨
      inside = true ∧ ∃ c, i = .coll c ∧ ¬Released P s p c := by
  cases inside with
  | false =>
    left
    cases i with
    | act a =>
      cases hx : P.exec p a loc s.world with
      | mk r w =>
        cases r with
        | ok loc' => exact ⟨_, .act hp hx, by simp [hp]⟩
        | error e => exact ⟨_, .fail hp hx, by simp [hp]⟩
    | coll c => exact ⟨_, .enter hp, by simp [hp]⟩
  | true =>
    obtain ⟨c, rfl⟩ := hin rfl
    by_cases hrel : Released P s p c
    · exact .inl ⟨_, .leave hp hrel, by simp [hp]⟩
    · exact .inr ⟨rfl, c, rfl, hrel⟩

variable {L : List Coll} (hL : ∀ p, colls (P.script p) = L)
include hL

/-- A process that can no longer move and has not returned is inside of a collective that it
may not leave. -/
theorem Reachable.blocked (hr : Reachable P s) {p : Fin n} (hmove : ¬CanMove P s p)
    (hp : ¬Returned s p) : (s.proc p).inside = true ∧
      ∃ c rest, (s.proc p).todo = .coll c :: rest ∧ ¬Released P s p c := by
  have hw := hr.wf hL p
  rw [Returned, not_or, Option.not_isSome_iff_eq_none] at hp
  obtain ⟨i, rest, htodo⟩ := List.exists_cons_of_ne_nil hp.1
  have hproc : s.proc p = ⟨i :: rest, (s.proc p).inside, (s.proc p).loc, none⟩ := by
    rw [← htodo, ← hp.2]
  have hinside : (s.proc p).inside = true → ∃ c, i = .coll c := by
    intro hin
    obtain ⟨-, c, rest', log, v, hcons, -⟩ := hw.inside hin
    rw [htodo] at hcons
    exact ⟨c, (List.cons.inj hcons).1⟩
  obtain ⟨hin, c, rfl, hrel⟩ := (canMove_or hproc hinside).resolve_left hmove
  exact ⟨hin, c, rest, htodo, hrel⟩

/-- Its collective has not been entered by all it waits for. -/
theorem Reachable.stuck (hr : Reachable P s) {p : Fin n} (hmove : ¬CanMove P s p)
    (hp : ¬Returned s p) : left s p + 1 = (s.posted p).length ∧
      ∃ c, L[left s p]? = some c ∧ ¬Matched P s c (left s p) := by
  obtain ⟨hin, c, rest, htodo, hrel⟩ := hr.blocked hL hmove hp
  obtain ⟨log, v, hlog, hleft, hc⟩ := hr.inside hL htodo hin
  refine ⟨by rw [hlog, hleft, List.length_append, List.length_singleton], c, hleft ▸ hc, ?_⟩
  rwa [← hr.released_iff hL htodo hin]

/-- A process that can no longer move and has not returned waits for one that has entered
fewer collectives, on the channel it waits on and in all. -/
theorem Reachable.waits (hr : Reachable P s) {p : Fin n} (hmove : ¬CanMove P s p)
    (hp : ¬Returned s p) : (s.proc p).inside = true ∧
      ∃ q c rest, (s.proc p).todo = .coll c :: rest ∧
        (onChan P (P.chan c) (s.posted q)).length < (onChan P (P.chan c) (s.posted p)).length ∧
        (s.posted q).length < (s.posted p).length := by
  obtain ⟨hin, c, rest, htodo, hrel⟩ := hr.blocked hL hmove hp
  have hfew : ∃ q, (onChan P (P.chan c) (s.posted q)).length <
      (onChan P (P.chan c) (s.posted p)).length := by
    unfold Released at hrel
    split at hrel
    · simpa using hrel
    · exact ⟨_, not_le.mp hrel⟩
  obtain ⟨q, hq⟩ := hfew
  refine ⟨hin, q, c, rest, htodo, hq, ?_⟩
  by_contra hle
  exact absurd hq (not_lt.mpr (length_onChan_le _ (hr.posted_prefix hL p)
    (hr.posted_prefix hL q) (not_lt.mp hle)))

/-- Where nobody is ever stranded, a run that comes to rest leaves nobody behind. -/
theorem NeverStrands.returned (h : NeverStrands P) (hr : Reachable P s) (hrest : AtRest P s)
    (p : Fin n) : Returned s p := by
  induction hlen : (s.posted p).length using Nat.strongRecOn generalizing p with
  | ind m ih =>
    by_contra hp
    -- the one that `p` waits for has entered fewer collectives, and so has returned
    obtain ⟨hin, q, c, rest, htodo, hchan, hlt⟩ := hr.waits hL (hrest p) hp
    rcases ih _ (hlen ▸ hlt) q rfl with hdone | hfail
    · have hq := hr.left_add_colls hL q
      rw [hdone] at hq
      have hp' := (hr.posted_prefix hL p).length_le
      rw [List.length_map] at hp'
      have hle : left s q ≤ (s.posted q).length := by
        unfold left
        split
        · exact Nat.sub_le _ _
        · exact le_rfl
      simp only [colls, List.length_nil, Nat.add_zero] at hq
      omega
    · exact h s hr q p ⟨hfail, hin, c, rest, htodo, hchan⟩

/-! ## Where no action fails -/

omit hL

def NeverFails (P : Protocol n Act Coll Chan Loc World Val ε) : Prop :=
  ∀ s p a rest loc, Reachable P s → s.proc p = ⟨.act a :: rest, false, loc, none⟩ →
    (P.exec p a loc s.world).1.isOk = true

theorem NeverFails.failed_eq_none (h : NeverFails P) (hr : Reachable P s) (p : Fin n) :
    (s.proc p).failed = none := by
  refine hr.invariant (I := fun s => ∀ p, (s.proc p).failed = none) (fun _ => rfl) ?_ p
  intro s t hr ih hs p
  have hother {q : Fin n} {pr : Proc Act Coll Loc ε} (hq : pr.failed = none) :
      (Function.update s.proc q pr p).failed = none := by
    by_cases hpq : p = q
    · rw [hpq, Function.update_self]
      exact hq
    · rw [Function.update_of_ne hpq]
      exact ih p
  cases hs with
  | @fail q a rest loc e w hp hx =>
    have hok := h s q a rest loc hr hp
    rw [hx] at hok
    exact absurd hok Bool.false_ne_true
  | act _ _ => exact hother rfl
  | enter _ => exact hother rfl
  | leave _ _ => exact hother rfl
  | idle _ _ => exact ih p

include hL

/-- When no process can go on, all are done. -/
theorem NeverFails.returned (h : NeverFails P) (hr : Reachable P s) (hrest : AtRest P s)
    (p : Fin n) : (s.proc p).todo = [] := by
  have hnever : NeverStrands P := fun s hr p q hstranded => by
    have hfail := hstranded.1
    rw [h.failed_eq_none hr p] at hfail
    exact absurd hfail Bool.false_ne_true
  refine (hnever.returned hL hr hrest p).resolve_right fun hfail => ?_
  rw [h.failed_eq_none hr p] at hfail
  exact absurd hfail Bool.false_ne_true

/-- Some run brings everyone to the end. -/
theorem NeverFails.completes (h : NeverFails P) : ∃ s, Reachable P s ∧ AtRest P s ∧
    ∀ p, (s.proc p).todo = [] ∧ (s.proc p).failed = none := by
  obtain ⟨s, hsteps, hrest⟩ := exists_atRest (P := P) (initial P)
  have hr : Reachable P s := hsteps
  exact ⟨s, hr, hrest, fun p => ⟨h.returned hL hr hrest p, h.failed_eq_none hr p⟩⟩

/-! ## Who has come least far -/

/-- At rest, some process that has entered no more collectives than any other has returned. -/
theorem Reachable.exists_least (hr : Reachable P s) (hrest : AtRest P s) (r : Fin n) :
    ∃ p, Returned s p ∧ ∀ q, (s.posted p).length ≤ (s.posted q).length := by
  obtain ⟨p, -, hp⟩ := Finset.exists_min_image Finset.univ (fun p => (s.posted p).length)
    ⟨r, Finset.mem_univ r⟩
  refine ⟨p, ?_, fun q => hp q (Finset.mem_univ q)⟩
  by_contra hret
  obtain ⟨-, q, c, rest, -, -, hlt⟩ := hr.waits hL (hrest p) hret
  exact absurd (hp q (Finset.mem_univ q)) (not_le.mpr hlt)

/-- At rest, whoever has not returned is stranded by a process that has failed and come no
farther than any other. -/
theorem Reachable.stranded_of_least (hr : Reachable P s) (hrest : AtRest P s) {p q : Fin n}
    (hfail : (s.proc p).failed.isSome)
    (hleast : ∀ r, (s.posted p).length ≤ (s.posted r).length) (hq : ¬Returned s q) :
    StrandedBy P s p q := by
  obtain ⟨hin, r, c, rest, htodo, hchan, -⟩ := hr.waits hL (hrest q) hq
  refine ⟨hfail, hin, c, rest, htodo, lt_of_le_of_lt ?_ hchan⟩
  exact length_onChan_le _ (hr.posted_prefix hL p) (hr.posted_prefix hL r) (hleast r)

/-- Whoever has returned is inside of no collective. -/
theorem Reachable.not_inside (hr : Reachable P s) {p : Fin n} (hp : Returned s p) :
    ¬(s.proc p).inside = true := fun hin => by
  obtain ⟨hnone, c, rest, log, v, htodo, -⟩ := (hr.wf hL p).inside hin
  rcases hp with hdone | hfail
  · rw [hdone] at htodo
    simp at htodo
  · rw [hnone] at hfail
    simp at hfail

/-- Whoever has returned has entered all collectives in front of its first failing action. -/
theorem Determined.posted_of_returned {fails : Fin n → Act → Bool} (hd : Determined P fails)
    (hr : Reachable P s) {p : Fin n} (hp : Returned s p) :
    (s.posted p).length = exits (fails p) (P.script p) := by
  rcases hp with hdone | hfail
  · obtain ⟨h, -⟩ := hd.progress hL hr p
    rw [left, if_neg (hr.not_inside hL (.inl hdone)), hdone] at h
    simpa [exits] using h
  · exact hd.posted_of_failed hL hr hfail

end Spmd
