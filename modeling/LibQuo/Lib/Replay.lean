import LibQuo.Lib.Spmd

/-!
Runs in which one process alone writes the shared part of the world. Then every
process can be replayed by itself: the writer over its own variables and the
shared part, each other process over its variables alone. The reference says
what each action does in the replay, what every message is, and which actions
never succeed; the hypotheses say that the run agrees with it, under a condition
`C` on the world that, once it holds, held all along.
-/

namespace Spmd

/-- What a run is compared with. -/
structure Reference (n : Nat) (Act Coll Loc World Val S : Type) where
  writer : Fin n
  shared : World → S
  act : Fin n → Act → Loc × S → Loc × S
  msg : Fin n → Coll → Val
  fails : Fin n → Act → Bool

variable {n : Nat} {Act Coll Chan Loc World Val ε S : Type} [DecidableEq Chan]
variable (P : Protocol n Act Coll Chan Loc World Val ε)
variable (R : Reference n Act Coll Loc World Val S)

/-- One entry of the script of `p`, replayed. -/
def advance (p : Fin n) (x : Loc × S) : Instr Act Coll → Loc × S
  | .act a => R.act p a x
  | .coll c => (P.recv p c (fun q => some (R.msg q c)) x.1, x.2)

/-- A part of the script of `p`, replayed from its beginning. -/
def replay (p : Fin n) (d : List (Instr Act Coll)) : Loc × S :=
  d.foldl (advance P R p) (P.loc₀ p, R.shared P.world₀)

omit [DecidableEq Chan] in
theorem replay_append (p : Fin n) (d e : List (Instr Act Coll)) :
    replay P R p (d ++ e) = e.foldl (advance P R p) (replay P R p d) := List.foldl_append

/-- No action of `d` is one that fails on `p`. -/
def Succeeds (p : Fin n) (d : List (Instr Act Coll)) : Prop :=
  ∀ a, .act a ∈ d → R.fails p a = false

/-- `p` has executed `d` and is where its replay is. -/
structure FollowsAt (s : Group n Act Coll Loc World Val ε) (p : Fin n)
    (d : List (Instr Act Coll)) : Prop where
  split : P.script p = d ++ (s.proc p).todo
  succeeds : Succeeds R p d
  loc : (s.proc p).loc = (replay P R p d).1
  shared : p = R.writer → R.shared s.world = (replay P R p d).2

/-- A state in which everyone is where its replay is. -/
structure Follows (s : Group n Act Coll Loc World Val ε) : Prop where
  proc : ∀ p, ∃ d, FollowsAt P R s p d
  msg : ∀ p, ∀ e ∈ s.posted p, e.2 = R.msg p e.1

/-- Why a run follows its reference. -/
structure Faithful (C : World → Prop) : Prop where
  earlier : ∀ p a loc w, C (P.exec p a loc w).2 → C w
  earlier_idle : ∀ p w w', P.idle p w w' → C w' → C w
  quiet : ∀ p a loc w, p ≠ R.writer → .act a ∈ P.script p →
    R.shared (P.exec p a loc w).2 = R.shared w
  quiet_idle : ∀ p w w', P.idle p w w' → R.shared w' = R.shared w
  fail : ∀ p a loc w e w', P.exec p a loc w = (.error e, w') → R.shared w' = R.shared w
  act : ∀ s p a d rest loc loc' w', Reachable P s → Follows P R s → FollowsAt P R s p d →
    s.proc p = ⟨.act a :: rest, false, loc, none⟩ → P.exec p a loc s.world = (.ok loc', w') →
    C w' → R.fails p a = false ∧ loc' = (R.act p a (replay P R p d)).1 ∧
      (p = R.writer → R.shared w' = (R.act p a (replay P R p d)).2)
  send : ∀ p d c rest, P.script p = d ++ .coll c :: rest → Succeeds R p d →
    P.send p c (replay P R p d).1 = R.msg p c
  recv : ∀ p c f loc, (∀ q v, f q = some v → v = R.msg q c) →
    (∀ q, P.root c = none ∨ P.root c = some q → (f q).isSome) →
    P.recv p c f loc = P.recv p c (fun q => some (R.msg q c)) loc

variable {P R} {s t : Group n Act Coll Loc World Val ε}
variable {C : World → Prop}

omit [DecidableEq Chan] in
theorem follows_initial : Follows P R (initial P) where
  proc p := ⟨[], rfl, fun a h => by simp at h, rfl, fun _ => rfl⟩
  msg p e h := by simp [initial] at h

section Common

variable {L : List Coll} (hL : ∀ p, colls (P.script p) = L)
include hL

/-- What a process receives is what the reference says was sent. -/
theorem Reachable.received_msg (hr : Reachable P s) (hf : Follows P R s) {p : Fin n} {c : Coll}
    {rest : List (Instr Act Coll)} (hp : (s.proc p).todo = .coll c :: rest)
    (hin : (s.proc p).inside = true) {q : Fin n} {v : Val} (hv : received P s p c q = some v) :
    v = R.msg q c := by
  obtain ⟨log, u, -, hleft, hget⟩ := hr.inside hL hp hin
  rw [hr.received_eq hL hp hin q] at hv
  obtain ⟨e, he, rfl⟩ := Option.map_eq_some_iff.mp hv
  have hc : L[left s p]? = some e.1 := by
    obtain ⟨zs, hzs⟩ := hr.posted_prefix hL q
    obtain ⟨hlt, hget'⟩ := List.getElem?_eq_some_iff.mp he
    rw [← hzs, List.getElem?_append_left (by simpa using hlt), List.getElem?_map, he]
    rfl
  rw [hleft, hget] at hc
  obtain rfl : c = e.1 := by simpa using hc
  exact hf.msg q e (List.mem_of_getElem? he)

/-- A process that may leave has something from everyone it waited for. -/
theorem Reachable.received_isSome (hr : Reachable P s) {p : Fin n} {c : Coll}
    {rest : List (Instr Act Coll)} (hp : (s.proc p).todo = .coll c :: rest)
    (hin : (s.proc p).inside = true) (hrel : Released P s p c) {q : Fin n}
    (hq : P.root c = none ∨ P.root c = some q) : (received P s p c q).isSome := by
  have hm := (hr.released_iff hL hp hin).mp hrel
  have hlt : left s p < (s.posted q).length := by
    unfold Matched at hm
    rcases hq with hq | hq <;> simp only [hq] at hm
    · exact hm q
    · exact hm
  rw [hr.received_eq hL hp hin, List.getElem?_eq_getElem hlt]
  rfl

omit hL in
theorem Faithful.earlier_step (hR : Faithful P R C) (hs : Step P s t) (hC : C t.world) :
    C s.world := by
  cases hs with
  | @act p a rest loc loc' w hp hx => exact hR.earlier p a loc s.world (by rwa [hx])
  | @fail p a rest loc e w hp hx => exact hR.earlier p a loc s.world (by rwa [hx])
  | enter _ => exact hC
  | leave _ _ => exact hC
  | @idle p w _ hidle => exact hR.earlier_idle p s.world w hidle hC

theorem Faithful.step (hR : Faithful P R C) (hr : Reachable P s) (hf : Follows P R s)
    (hs : Step P s t) (hC : C t.world) : Follows P R t := by
  cases hs with
  | @act p a rest loc loc' w hp hx =>
    refine ⟨fun q => ?_, hf.msg⟩
    obtain ⟨d, hd⟩ := hf.proc q
    by_cases hq : q = p
    · subst hq
      obtain ⟨hok, hloc, hw⟩ := hR.act s q a d rest loc loc' w hr hf hd hp hx hC
      refine ⟨d ++ [.act a], ⟨by simpa [hp] using hd.split, ?_, ?_, ?_⟩⟩
      · intro b hb
        simp only [List.mem_append, List.mem_singleton] at hb
        rcases hb with hb | hb
        · exact hd.succeeds b hb
        · obtain rfl : b = a := by simpa using hb
          exact hok
      · simpa [replay_append, advance] using hloc
      · simpa [replay_append, advance] using hw
    · have hw : q = R.writer → R.shared w = R.shared s.world := by
        rintro rfl
        obtain ⟨e, he⟩ := hf.proc p
        have hmem : .act a ∈ P.script p := by
          rw [he.split, hp]
          simp
        have := hR.quiet p a loc s.world (Ne.symm hq) hmem
        rwa [hx] at this
      exact ⟨d, ⟨by simpa [hq] using hd.split, hd.succeeds, by simpa [hq] using hd.loc,
        fun h => (hw h).trans (hd.shared h)⟩⟩
  | @fail p a rest loc e w hp hx =>
    refine ⟨fun q => ?_, hf.msg⟩
    obtain ⟨d, hd⟩ := hf.proc q
    have hw : q = R.writer → R.shared w = (replay P R q d).2 :=
      fun h => (hR.fail p a loc s.world e w hx).trans (hd.shared h)
    by_cases hq : q = p
    · subst hq
      exact ⟨d, ⟨by simpa [hp] using hd.split, hd.succeeds, by simpa [hp] using hd.loc, hw⟩⟩
    · exact ⟨d, ⟨by simpa [hq] using hd.split, hd.succeeds, by simpa [hq] using hd.loc, hw⟩⟩
  | @enter p c rest loc hp =>
    refine ⟨fun q => ?_, fun q e he => ?_⟩
    · obtain ⟨d, hd⟩ := hf.proc q
      by_cases hq : q = p
      · subst hq
        exact ⟨d, ⟨by simpa [hp] using hd.split, hd.succeeds, by simpa [hp] using hd.loc,
          hd.shared⟩⟩
      · exact ⟨d, ⟨by simpa [hq] using hd.split, hd.succeeds, by simpa [hq] using hd.loc,
          hd.shared⟩⟩
    · by_cases hq : q = p
      · subst hq
        obtain ⟨d, hd⟩ := hf.proc q
        have hsplit := hd.split
        have hloc := hd.loc
        rw [hp] at hsplit hloc
        simp only [Function.update_self, List.mem_append, List.mem_singleton] at he
        rcases he with he | rfl
        · exact hf.msg q e he
        · exact (congrArg _ hloc).trans (hR.send q d c rest hsplit hd.succeeds)
      · exact hf.msg q e (by simpa [hq] using he)
  | @leave p c rest loc hp hrel =>
    refine ⟨fun q => ?_, hf.msg⟩
    obtain ⟨d, hd⟩ := hf.proc q
    by_cases hq : q = p
    · subst hq
      have htodo : (s.proc q).todo = .coll c :: rest := by rw [hp]
      have hin : (s.proc q).inside = true := by rw [hp]
      have hloc : loc = (replay P R q d).1 := by simpa [hp] using hd.loc
      have hrecv := hR.recv q c (received P s q c) loc
        (fun q' v hv => hr.received_msg hL hf htodo hin hv)
        (fun q' => hr.received_isSome hL htodo hin hrel)
      refine ⟨d ++ [.coll c], ⟨by simpa [hp] using hd.split, ?_, ?_, ?_⟩⟩
      · intro b hb
        exact hd.succeeds b (by simpa using hb)
      · simp only [replay_append, List.foldl_cons, List.foldl_nil, advance,
          Function.update_self, hrecv, ← hloc]
      · simpa [replay_append, advance] using hd.shared
    · exact ⟨d, ⟨by simpa [hq] using hd.split, hd.succeeds, by simpa [hq] using hd.loc,
        hd.shared⟩⟩
  | @idle p w hout hidle =>
    refine ⟨fun q => ?_, hf.msg⟩
    obtain ⟨d, hd⟩ := hf.proc q
    exact ⟨d, ⟨hd.split, hd.succeeds, hd.loc,
      fun h => (hR.quiet_idle p s.world w hidle).trans (hd.shared h)⟩⟩

/-- **Replay.** In a run that meets `C` at its end everyone is where its replay is. -/
theorem Faithful.follows (hR : Faithful P R C) (hr : Reachable P s) (hC : C s.world) :
    Follows P R s := by
  refine hr.invariant (I := fun s => C s.world → Follows P R s) (fun _ => follows_initial) ?_ hC
  intro s t hr ih hs hCt
  exact hR.step hL hr (ih (hR.earlier_step hs hCt)) hs hCt

end Common

/-! ## What holds along a replay -/

/-- The weakest precondition of `xs` for `B`, where every action is to meet `ok` and
every collective `sent` when the replay reaches it, and nothing is asked after an
action that fails. -/
def wp (P : Protocol n Act Coll Chan Loc World Val ε)
    (R : Reference n Act Coll Loc World Val S) (ok : Act → Loc × S → Prop)
    (sent : Coll → Loc × S → Prop) (p : Fin n) :
    List (Instr Act Coll) → (Loc × S → Prop) → Loc × S → Prop
  | [], B, x => B x
  | .act a :: t, B, x => ok a x ∧ (R.fails p a = false → wp P R ok sent p t B (R.act p a x))
  | .coll c :: t, B, x => sent c x ∧ wp P R ok sent p t B (advance P R p x (.coll c))

variable {ok : Act → Loc × S → Prop} {sent : Coll → Loc × S → Prop} {p : Fin n}
variable {A B : Loc × S → Prop} {x : Loc × S} {xs ys d rest : List (Instr Act Coll)}

omit [DecidableEq Chan] in
theorem wp_append :
    wp P R ok sent p (xs ++ ys) B x ↔ wp P R ok sent p xs (wp P R ok sent p ys B) x := by
  induction xs generalizing x with
  | nil => rfl
  | cons i xs ih =>
    cases i with
    | act a => simp only [List.cons_append, wp, ih]
    | coll c => simp only [List.cons_append, wp, ih]

omit [DecidableEq Chan] in
theorem wp_mono (h : wp P R ok sent p xs A x) (hAB : ∀ y, A y → B y) :
    wp P R ok sent p xs B x := by
  induction xs generalizing x with
  | nil => exact hAB x h
  | cons i xs ih =>
    cases i with
    | act a => exact ⟨h.1, fun hf => ih (h.2 hf)⟩
    | coll c => exact ⟨h.1, ih h.2⟩

omit [DecidableEq Chan] in
/-- What is left to show where the replay gets without a failure. -/
theorem wp_rest (h : wp P R ok sent p (d ++ rest) B x) (hd : Succeeds R p d) :
    wp P R ok sent p rest B (d.foldl (advance P R p) x) := by
  induction d generalizing x with
  | nil => exact h
  | cons i d ih =>
    have hd' : Succeeds R p d := fun a ha => hd a (List.mem_cons_of_mem _ ha)
    cases i with
    | act b => exact ih (h.2 (hd b List.mem_cons_self)) hd'
    | coll c => exact ih h.2 hd'

omit [DecidableEq Chan] in
/-- Where the replay gets without a failure, the next action meets `ok`. -/
theorem wp_at {a : Act} (h : wp P R ok sent p (d ++ .act a :: rest) B x) (hd : Succeeds R p d) :
    ok a (d.foldl (advance P R p) x) :=
  (wp_rest h hd).1

omit [DecidableEq Chan] in
/-- Where the replay gets without a failure, the next collective meets `sent`. -/
theorem wp_at_coll {c : Coll} (h : wp P R ok sent p (d ++ .coll c :: rest) B x)
    (hd : Succeeds R p d) : sent c (d.foldl (advance P R p) x) :=
  (wp_rest h hd).1

omit [DecidableEq Chan] in
theorem wp_end (h : wp P R ok sent p xs B x) (hd : Succeeds R p xs) :
    B (xs.foldl (advance P R p) x) := by
  rw [← List.append_nil xs] at h
  exact wp_rest h hd

omit [DecidableEq Chan] in
theorem wp_of_forall (h : ∀ a, .act a ∈ xs → ∀ y, ok a y) (hc : ∀ c y, sent c y) :
    wp P R ok sent p xs (fun _ => True) x := by
  induction xs generalizing x with
  | nil => trivial
  | cons i xs ih =>
    have hxs : ∀ a, .act a ∈ xs → ∀ y, ok a y := fun a ha => h a (List.mem_cons_of_mem _ ha)
    cases i with
    | act a => exact ⟨h a List.mem_cons_self x, fun _ => ih hxs⟩
    | coll c => exact ⟨hc c x, ih hxs⟩

omit [DecidableEq Chan] in
/-- A loop over `0, …, m - 1` with the invariant `I`. -/
theorem wp_range {I : Nat → Loc × S → Prop} {f : Nat → Act} {m : Nat} (h₀ : I 0 x)
    (hok : ∀ k x, k < m → I k x → ok (f k) x)
    (hI : ∀ k x, k < m → I k x → R.fails p (f k) = false → I (k + 1) (R.act p (f k) x)) :
    wp P R ok sent p (((List.range m).map f).map .act) (I m) x := by
  induction m with
  | zero => exact h₀
  | succ m ih =>
    rw [List.range_succ, List.map_append, List.map_append, wp_append]
    refine wp_mono (ih (fun k x hk => hok k x (hk.trans (Nat.lt_succ_self m)))
      fun k x hk => hI k x (hk.trans (Nat.lt_succ_self m))) fun y hy => ?_
    exact ⟨hok m y (Nat.lt_succ_self m) hy, hI m y (Nat.lt_succ_self m) hy⟩

omit [DecidableEq Chan] in
/-- A list of actions that are ready whatever has come before. -/
theorem wp_acts_of_forall {as : List Act} (hok : ∀ a ∈ as, ∀ y, ok a y)
    (h : B (as.foldl (fun y a => R.act p a y) x)) : wp P R ok sent p (as.map .act) B x := by
  induction as generalizing x with
  | nil => exact h
  | cons a as ih =>
    exact ⟨hok a List.mem_cons_self x,
      fun _ => ih (fun b hb => hok b (List.mem_cons_of_mem _ hb)) h⟩

omit [DecidableEq Chan] in
/-- What no entry of `xs` changes is the same after `xs`. -/
theorem foldl_advance_keep {γ : Type} (g : Loc × S → γ)
    (h : ∀ i ∈ xs, ∀ y, g (advance P R p y i) = g y) :
    g (xs.foldl (advance P R p) x) = g x := by
  induction xs generalizing x with
  | nil => rfl
  | cons i xs ih =>
    rw [List.foldl_cons, ih fun j hj => h j (List.mem_cons_of_mem _ hj)]
    exact h i List.mem_cons_self x

end Spmd
