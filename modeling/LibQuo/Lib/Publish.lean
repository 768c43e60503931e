import LibQuo.Lib.Replay
import LibQuo.Lib.Stranding

/-!
Groups in which one process alone changes the world. The others look at it in
windows only: between two collectives that follow each other in the script of the
writer, and that it cannot get through without them. What the writer has done
before the window is then all they can see.
-/

namespace Spmd

variable {n : Nat} {Act Coll Chan Loc World Val ε : Type}

/-- One process writes, the others look. An action of `p` is made to fail by `fault`,
or else does what `perform` says. If `behind a = some xs`, the others execute `a` in the
window behind the part `xs` of the writer's script; they execute all other actions
without looking at the world. -/
structure Publication (P : Protocol n Act Coll Chan Loc World Val ε) where
  writer : Fin n
  fault : Fin n → Act → Option ε
  perform : Fin n → Act → Loc → World → Except ε Loc × World
  dead : Fin n → Act → Bool
  behind : Act → Option (List (Instr Act Coll))
  msg : Fin n → Coll → Val
  exec_eq : ∀ p a loc w, P.exec p a loc w =
    match fault p a with
    | some e => (.error e, w)
    | none => perform p a loc w
  error : ∀ p a loc w e w', perform p a loc w = (.error e, w') → w' = w
  idle : ∀ p w w', P.idle p w w' → w' = w
  quiet : ∀ p a loc w, p ≠ writer → .act a ∈ P.script p → (perform p a loc w).2 = w
  blind : ∀ p a loc w w', p ≠ writer → .act a ∈ P.script p → behind a = none →
    (perform p a loc w).1 = (perform p a loc w').1
  window : ∀ p a xs d rest, p ≠ writer → P.script p = d ++ .act a :: rest → behind a = some xs →
    ∃ c₁ c₂ post, P.script writer = xs ++ .coll c₁ :: .coll c₂ :: post ∧
      P.root c₁ = none ∧ P.root c₂ = none ∧ (colls d).length = (colls xs).length + 1
  recv : ∀ p c f loc, (∀ q v, f q = some v → v = msg q c) →
    (∀ q, P.root c = none ∨ P.root c = some q → (f q).isSome) →
    P.recv p c f loc = P.recv p c (fun q => some (msg q c)) loc

variable {P : Protocol n Act Coll Chan Loc World Val ε}

namespace Publication

variable (U : Publication P)

def fails (p : Fin n) (a : Act) : Bool := (U.fault p a).isSome || U.dead p a

/-- One entry of the script of the writer. -/
def write (x : Loc × World) : Instr Act Coll → Loc × World
  | .act a =>
    match U.perform U.writer a x.1 x.2 with
    | (.ok loc, w) => (loc, w)
    | (.error _, _) => x
  | .coll c => (P.recv U.writer c (fun q => some (U.msg q c)) x.1, x.2)

/-- The variables of the writer and the world after a part of its script. -/
def written (xs : List (Instr Act Coll)) : Loc × World :=
  xs.foldl U.write (P.loc₀ U.writer, P.world₀)

/-- What `p` looks at when it executes `a`. -/
def view (p : Fin n) (a : Act) (w : World) : World :=
  if p = U.writer then w
  else match U.behind a with
    | some xs => (U.written xs).2
    | none => P.world₀

/-- The writer fails before the window in which `p` would execute `a`. -/
def unreached (p : Fin n) (a : Act) : Bool :=
  match U.behind a with
  | some xs => decide (p ≠ U.writer) && xs.any fun
    | .act b => U.fails U.writer b
    | .coll _ => false
  | none => false

def reference : Reference n Act Coll Loc World Val World where
  writer := U.writer
  shared := id
  act p a x :=
    match U.perform p a x.1 (U.view p a x.2) with
    | (.ok loc, w) => (loc, if p = U.writer then w else x.2)
    | (.error _, _) => x
  msg := U.msg
  fails p a := U.fails p a || U.unreached p a

/-- An action fails only if it is dead. -/
def Ready (p : Fin n) (a : Act) (x : Loc × World) : Prop :=
  U.unreached p a = false → (U.perform p a x.1 (U.view p a x.2)).1.isOk = !U.dead p a

/-- The message is the expected one. -/
def Sends (p : Fin n) (c : Coll) (x : Loc × World) : Prop := P.send p c x.1 = U.msg p c

/-- The replay of `p` with its actions ready and its messages as expected. -/
abbrev Wp (p : Fin n) (xs : List (Instr Act Coll)) (B : Loc × World → Prop) (x : Loc × World) :
    Prop :=
  wp P U.reference (U.Ready p) (U.Sends p) p xs B x

/-- All scripts are ready from the beginning. -/
def Sound : Prop := ∀ p, U.Wp p (P.script p) (fun _ => True) (P.loc₀ p, P.world₀)

variable {U} {p : Fin n} {a : Act} {c : Coll} {x : Loc × World} {y : Loc} {w : World}
variable {xs t : List (Instr Act Coll)} {B : Loc × World → Prop}

theorem act_of_ok (h : U.perform p a x.1 (U.view p a x.2) = (.ok y, w)) :
    U.reference.act p a x = (y, if p = U.writer then w else x.2) := by
  simp [reference, h]

theorem act_fst (h : (U.perform p a x.1 (U.view p a x.2)).1 = .ok y) :
    (U.reference.act p a x).1 = y := by
  cases hx : U.perform p a x.1 (U.view p a x.2) with
  | mk r w =>
    rw [hx] at h
    simp only at h
    subst h
    rw [act_of_ok hx]

/-! ## Rules for one script -/

theorem wp_ok (h : U.perform p a x.1 (U.view p a x.2) = (.ok y, w)) (hd : U.dead p a = false)
    (ht : U.Wp p t B (y, if p = U.writer then w else x.2)) : U.Wp p (.act a :: t) B x := by
  refine ⟨fun _ => by rw [h, hd]; rfl, fun _ => ?_⟩
  rw [act_of_ok h]
  exact ht

/-- An action of the writer. -/
theorem wp_writer (h : U.perform U.writer a x.1 x.2 = (.ok y, w))
    (hd : U.dead U.writer a = false) (ht : U.Wp U.writer t B (y, w)) :
    U.Wp U.writer (.act a :: t) B x := by
  refine wp_ok (w := w) ?_ hd (by rwa [if_pos rfl])
  rw [view, if_pos rfl]
  exact h

/-- An action that leaves the world alone. -/
theorem wp_local (h : ∀ w, U.perform p a x.1 w = (.ok y, w)) (hd : U.dead p a = false)
    (ht : U.Wp p t B (y, x.2)) : U.Wp p (.act a :: t) B x := by
  refine wp_ok (h _) hd ?_
  by_cases hp : p = U.writer
  · rwa [if_pos hp, view, if_pos hp]
  · rwa [if_neg hp]

theorem wp_dead {e : ε} (h : ∀ w, (U.perform p a x.1 w).1 = .error e) (hd : U.dead p a = true) :
    U.Wp p (.act a :: t) B x := by
  refine ⟨fun _ => by rw [h, hd]; rfl, fun hf => ?_⟩
  simp [reference, fails, hd] at hf

theorem wp_coll (hs : P.send p c x.1 = U.msg p c)
    (h : P.recv p c (fun q => some (U.msg q c)) x.1 = y) (ht : U.Wp p t B (y, x.2)) :
    U.Wp p (.coll c :: t) B x := by
  subst h
  exact ⟨hs, ht⟩

theorem unreached_eq_false (hp : p ≠ U.writer) (hb : U.behind a = some xs) :
    U.unreached p a = false ↔ ∀ b, .act b ∈ xs → U.fails U.writer b = false := by
  have hany : U.unreached p a = xs.any fun
      | .act b => U.fails U.writer b
      | .coll _ => false := by simp [unreached, hb, hp]
  rw [hany, List.any_eq_false]
  constructor
  · intro h b hmem
    simpa using h _ hmem
  · intro h i hi
    cases i with
    | act b => simpa using h b hi
    | coll c => simp

/-- In the window behind `xs`, the writer has done `xs` without failing. -/
theorem wp_window (hp : p ≠ U.writer) (hb : U.behind a = some xs)
    (h : (∀ b, .act b ∈ xs → U.fails U.writer b = false) →
      ∃ y, (U.perform p a x.1 (U.written xs).2).1 = .ok y ∧ U.dead p a = false ∧
        U.Wp p t B (y, x.2)) : U.Wp p (.act a :: t) B x := by
  have hview : U.view p a x.2 = (U.written xs).2 := by simp [view, hp, hb]
  refine ⟨fun hr => ?_, fun hf => ?_⟩
  · obtain ⟨y, hloc, hd, -⟩ := h ((unreached_eq_false hp hb).mp hr)
    rw [hview, hloc, hd]
    rfl
  · have hr : U.unreached p a = false := by
      simp only [reference, Bool.or_eq_false_iff] at hf
      exact hf.2
    obtain ⟨y, hloc, -, ht⟩ := h ((unreached_eq_false hp hb).mp hr)
    cases hx : U.perform p a x.1 (U.written xs).2 with
    | mk r w =>
      rw [hx] at hloc
      simp only at hloc
      subst hloc
      rw [act_of_ok (by rw [hview]; exact hx), if_neg hp]
      exact ht

theorem unreached_writer (a : Act) : U.unreached U.writer a = false := by
  unfold unreached
  cases U.behind a <;> simp

theorem succeeds_writer (h : ∀ b, .act b ∈ xs → U.fails U.writer b = false) :
    Succeeds U.reference U.writer xs := by
  intro b hb
  simp [reference, h b hb, unreached_writer]

theorem replay_writer (xs : List (Instr Act Coll)) :
    replay P U.reference U.writer xs = U.written xs := by
  unfold replay written
  congr 1
  funext x i
  cases i with
  | act a => simp only [advance, reference, write, view, if_pos]
  | coll c => rfl

/-- What the writer has after `xs`, if nothing in it fails. -/
theorem written_of (hwp : U.Wp U.writer xs B (P.loc₀ U.writer, P.world₀))
    (h : ∀ b, .act b ∈ xs → U.fails U.writer b = false) : B (U.written xs) := by
  rw [← replay_writer]
  exact wp_end hwp (succeeds_writer h)

theorem exec_ok {loc loc' : Loc} {w' : World} (h : P.exec p a loc w = (.ok loc', w')) :
    U.fault p a = none ∧ U.perform p a loc w = (.ok loc', w') := by
  rw [U.exec_eq] at h
  cases hf : U.fault p a with
  | some e => simp [hf] at h
  | none => exact ⟨rfl, by simpa [hf] using h⟩

theorem exec_fails {loc : Loc} {e : ε} {w' : World} (h : P.exec p a loc w = (.error e, w')) :
    U.fault p a = some e ∨ U.fault p a = none ∧ (U.perform p a loc w).1 = .error e := by
  rw [U.exec_eq] at h
  cases hf : U.fault p a with
  | some e₀ =>
    rw [hf] at h
    have he := (Prod.mk.inj h).1
    exact .inl (by simpa using he)
  | none =>
    refine .inr ⟨rfl, ?_⟩
    simp only [hf] at h
    rw [h]

/-! ## Runs -/

section Runs

variable [DecidableEq Chan] {s : Group n Act Coll Loc World Val ε} {loc : Loc}
variable {d rest : List (Instr Act Coll)} {L : List Coll} (hL : ∀ p, colls (P.script p) = L)
include hL

/-- In its window a process finds the writer between the two collectives. -/
theorem writer_in_window (hr : Reachable P s) (hp : p ≠ U.writer)
    (hs : s.proc p = ⟨.act a :: rest, false, loc, none⟩) (hd : P.script p = d ++ .act a :: rest)
    (hb : U.behind a = some xs) {e : List (Instr Act Coll)}
    (he : P.script U.writer = e ++ (s.proc U.writer).todo) :
    e = xs ∨ ∃ c, e = xs ++ [.coll c] := by
  obtain ⟨c₁, c₂, post, hw, h₁, h₂, hlen⟩ := U.window p a xs d rest hp hd hb
  have hleft : left s p = (colls xs).length + 1 := by
    rw [hr.left_eq hL (d := d) (by rw [hd, hs]), hlen]
  have hposted : (s.posted p).length = (colls xs).length + 1 := by
    rw [← hleft]
    simp [left, hs]
  have hcolls : L = colls xs ++ c₁ :: c₂ :: colls post := by
    rw [← hL U.writer, hw, colls_append]
    rfl
  have hw' : P.script U.writer = (xs ++ [.coll c₁]) ++ .coll c₂ :: post := by
    rw [hw]
    simp
  -- `p` has left the first collective, so that the writer has entered it
  have hentered := hr.ordered hL (p := p) (k := (colls xs).length) (c := c₁) (by omega)
    (by simp [hcolls])
  simp only [Matched, h₁] at hentered
  obtain ⟨f, hf⟩ := hr.todo_of_posted hL hw (hentered U.writer)
  -- `p` has not entered the second one, so that the writer has not left it
  have hinside : left s U.writer ≤ (colls xs).length + 1 := by
    by_contra hlt
    have := hr.ordered hL (p := U.writer) (k := (colls xs).length + 1) (c := c₂) (by omega)
      (by simp [hcolls])
    simp only [Matched, h₂] at this
    have := this p
    omega
  obtain ⟨g, hg⟩ := hr.todo_of_not_left hL hw' (by simpa [colls_append, colls] using hinside)
  have hfg : f ++ g = [.coll c₁] := by
    rw [← hg, ← List.append_assoc] at hf
    exact List.append_cancel_right (hf.trans (by simp))
  have hxs : e = xs ++ f := by
    rw [hw, ← hf, ← List.append_assoc] at he
    exact (List.append_cancel_right he).symm
  rcases List.append_eq_singleton_iff.mp hfg with ⟨rfl, -⟩ | ⟨rfl, -⟩
  · exact .inl (by simpa using hxs)
  · exact .inr ⟨c₁, hxs⟩

/-- In its window a process sees what the writer has done before. -/
theorem world_of_window (hr : Reachable P s) (hf : Follows P U.reference s) (hp : p ≠ U.writer)
    (hs : s.proc p = ⟨.act a :: rest, false, loc, none⟩) (hd : P.script p = d ++ .act a :: rest)
    (hb : U.behind a = some xs) : s.world = (U.written xs).2 ∧ U.unreached p a = false := by
  obtain ⟨e, he⟩ := hf.proc U.writer
  have hworld : s.world = (U.written e).2 := by
    rw [← replay_writer]
    exact he.shared rfl
  have hfails : ∀ b, .act b ∈ e → U.fails U.writer b = false := by
    intro b hb
    have := he.succeeds b hb
    simpa [reference, unreached_writer] using this
  rw [unreached_eq_false hp hb]
  rcases writer_in_window hL hr hp hs hd hb he.split with rfl | ⟨c, rfl⟩
  · exact ⟨hworld, hfails⟩
  · refine ⟨?_, fun b hb => hfails b (List.mem_append_left _ hb)⟩
    rw [hworld, written, List.foldl_append]
    rfl

/-- What an action does in a run is what it does in the replay. -/
theorem perform_of_follows (hr : Reachable P s) (hf : Follows P U.reference s)
    (hd : FollowsAt P U.reference s p d) (hs : s.proc p = ⟨.act a :: rest, false, loc, none⟩) :
    U.unreached p a = false ∧ (U.perform p a loc s.world).1 =
      (U.perform p a (replay P U.reference p d).1
        (U.view p a (replay P U.reference p d).2)).1 ∧
      (p = U.writer → s.world = U.view p a (replay P U.reference p d).2) := by
  have hloc : loc = (replay P U.reference p d).1 := by simpa [hs] using hd.loc
  have hsplit : P.script p = d ++ .act a :: rest := by simpa [hs] using hd.split
  by_cases hp : p = U.writer
  · subst hp
    have hview : s.world = U.view U.writer a (replay P U.reference U.writer d).2 := by
      rw [view, if_pos rfl]
      exact hd.shared rfl
    exact ⟨unreached_writer a, by rw [hloc, ← hview], fun _ => hview⟩
  · cases hb : U.behind a with
    | none =>
      refine ⟨by simp [unreached, hb], ?_, fun h => absurd h hp⟩
      rw [hloc]
      exact U.blind p a _ _ _ hp (by rw [hsplit]; simp) hb
    | some xs =>
      obtain ⟨hworld, hun⟩ := world_of_window hL hr hf hp hs hsplit hb
      refine ⟨hun, ?_, fun h => absurd h hp⟩
      rw [hloc, view, if_neg hp, hb, hworld]

theorem ready_of_follows (hU : U.Sound) (hr : Reachable P s) (hf : Follows P U.reference s)
    (hd : FollowsAt P U.reference s p d) (hs : s.proc p = ⟨.act a :: rest, false, loc, none⟩) :
    (U.perform p a loc s.world).1.isOk = !U.dead p a := by
  obtain ⟨hun, hperform, -⟩ := perform_of_follows hL hr hf hd hs
  have hwp := hU p
  rw [hd.split, hs] at hwp
  rw [hperform]
  exact wp_at hwp hd.succeeds hun

theorem Sound.faithful (hU : U.Sound) : Faithful P U.reference fun _ => True where
  earlier _ _ _ _ _ := trivial
  earlier_idle _ _ _ _ _ := trivial
  quiet p a loc w hp ha := by
    simp only [reference, id, U.exec_eq]
    split
    · rfl
    · exact U.quiet p a loc w hp ha
  quiet_idle p w w' h := U.idle p w w' h
  fail p a loc w e w' h := by
    simp only [reference, id]
    rw [U.exec_eq] at h
    split at h
    · exact (Prod.mk.inj h).2.symm
    · exact U.error p a loc w e w' h
  act s p a d rest loc loc' w' hr hf hd hs hx _ := by
    obtain ⟨hfault, hok⟩ := exec_ok hx
    obtain ⟨hun, hperform, hview⟩ := perform_of_follows hL hr hf hd hs
    have hdead := ready_of_follows hL hU hr hf hd hs
    have hloc : loc = (replay P U.reference p d).1 := by simpa [hs] using hd.loc
    refine ⟨?_, ?_⟩
    · rw [hok] at hdead
      simpa [reference, fails, hfault, hun, Except.isOk, Except.toBool] using hdead
    · rw [hok] at hperform
      refine ⟨(act_fst hperform.symm).symm, fun hp => ?_⟩
      replace hp : p = U.writer := hp
      rw [hview hp, hloc] at hok
      rw [act_of_ok hok, if_pos hp]
      rfl
  send p d c rest hd hs := by
    have hwp := hU p
    rw [hd] at hwp
    exact wp_at_coll hwp hs
  recv p c f loc hval hsome := U.recv p c f loc hval hsome

theorem Sound.follows (hU : U.Sound) (hr : Reachable P s) : Follows P U.reference s :=
  (hU.faithful hL).follows hL hr trivial

/-- Whichever actions are made to fail, which actions fail is known beforehand. -/
theorem Sound.exec_isOk (hU : U.Sound) (hr : Reachable P s)
    (hs : s.proc p = ⟨.act a :: rest, false, loc, none⟩) :
    (P.exec p a loc s.world).1.isOk = !U.fails p a := by
  have hf := hU.follows hL hr
  obtain ⟨d, hd⟩ := hf.proc p
  rw [U.exec_eq]
  cases hfault : U.fault p a with
  | some e => simp [fails, hfault, Except.isOk, Except.toBool]
  | none =>
    simp only [ready_of_follows hL hU hr hf hd hs, fails, hfault]
    rfl

theorem Sound.determined (hU : U.Sound) : Determined P U.fails :=
  fun _ _ _ _ _ hr hs _ => hU.exec_isOk hL hr hs

/-- Where a process has failed, and with which error. -/
theorem Sound.stopped (hU : U.Sound) (hr : Reachable P s) {e : ε}
    (hp : (s.proc p).failed = some e) : ∃ d a rest, P.script p = d ++ .act a :: rest ∧
      (s.posted p).length = (colls d).length ∧ (∀ b, .act b ∈ d → U.fails p b = false) ∧
      U.fails p a = true ∧
      (U.fault p a = some e ∨
        U.fault p a = none ∧ ∃ loc w, (U.perform p a loc w).1 = .error e) := by
  have hstop : ∀ e, (s.proc p).failed = some e → ∃ a rest, (s.proc p).todo = .act a :: rest ∧
      U.fails p a = true ∧
      (U.fault p a = some e ∨
        U.fault p a = none ∧ ∃ loc w, (U.perform p a loc w).1 = .error e) := by
    refine hr.invariant (I := fun s => ∀ e, (s.proc p).failed = some e → ∃ a rest,
      (s.proc p).todo = .act a :: rest ∧ U.fails p a = true ∧
      (U.fault p a = some e ∨
        U.fault p a = none ∧ ∃ loc w, (U.perform p a loc w).1 = .error e))
      (by simp [initial]) fun s t hr ih hs => ?_
    cases hs with
    | @fail q a rest loc e w hq hx =>
      by_cases hpq : p = q
      · subst hpq
        have hok := hU.exec_isOk hL hr hq
        have hf : U.fails p a = true := by simpa [hx, Except.isOk, Except.toBool] using hok
        intro e' he'
        obtain rfl : e = e' := by simpa using he'
        refine ⟨a, rest, by simp, hf, ?_⟩
        exact (U.exec_fails hx).imp id fun h => ⟨h.1, loc, s.world, h.2⟩
      · simpa [hpq] using ih
    | @act q a rest loc loc' w hq hx =>
      by_cases hpq : p = q
      · subst hpq
        simp
      · simpa [hpq] using ih
    | @enter q c rest loc hq =>
      by_cases hpq : p = q
      · subst hpq
        simp
      · simpa [hpq] using ih
    | @leave q c rest loc hq hrel =>
      by_cases hpq : p = q
      · subst hpq
        simp
      · simpa [hpq] using ih
    | idle _ _ => exact ih
  obtain ⟨a, rest, htodo, hfails, herr⟩ := hstop e hp
  obtain ⟨d, hd⟩ := (hU.follows hL hr).proc p
  have hsplit : P.script p = d ++ .act a :: rest := by rw [hd.split, htodo]
  refine ⟨d, a, rest, hsplit, ?_, fun b hb => ?_, hfails, herr⟩
  · have hleft := hr.left_eq hL (d := d) (by rw [hsplit, htodo])
    obtain ⟨hin, -⟩ := (hr.wf hL p).failed e hp
    rw [← hleft, left, hin]
    rfl
  · have := hd.succeeds b hb
    simp only [reference, Bool.or_eq_false_iff] at this
    exact this.1

/-- A process whose actions do not fail has not failed. -/
theorem Sound.failed_eq_none (hU : U.Sound) (hr : Reachable P s)
    (hp : ∀ a, .act a ∈ P.script p → U.fails p a = false) : (s.proc p).failed = none := by
  by_contra hne
  obtain ⟨e, he⟩ := Option.ne_none_iff_exists'.mp hne
  obtain ⟨d, a, rest, hd, -, -, hfails, -⟩ := hU.stopped hL hr he
  have := hp a (by rw [hd]; simp)
  rw [hfails] at this
  exact Bool.noConfusion this

/-- A process behind its last collective runs by itself to its end. -/
theorem Sound.run_to_end (hU : U.Sound) {todo : List (Instr Act Coll)} (hr : Reachable P s)
    (hs : s.proc p = ⟨todo, false, loc, none⟩) (hc : colls todo = [])
    (hp : ∀ a, .act a ∈ todo → U.fails p a = false) :
    ∃ t, Steps P s t ∧ OnlyMoved s t p ∧ (t.proc p).todo = [] ∧ (t.proc p).failed = none := by
  induction todo generalizing s loc with
  | nil => exact ⟨s, .refl, fun _ _ => ⟨rfl, rfl⟩, by rw [hs], by rw [hs]⟩
  | cons i rest ih =>
    cases i with
    | coll c => simp [colls] at hc
    | act a =>
      have hok := hU.exec_isOk hL hr hs
      rw [hp a List.mem_cons_self] at hok
      cases hx : P.exec p a loc s.world with
      | mk r w =>
        rw [hx] at hok
        cases r with
        | error e => simp [Except.isOk, Except.toBool] at hok
        | ok loc' =>
          have hstep : Step P s _ := .act hs hx
          have hnext : Function.update s.proc p ⟨rest, false, loc', none⟩ p =
              ⟨rest, false, loc', none⟩ := by simp
          obtain ⟨t, hst, hmoved, ht⟩ := ih (hr.step hstep) hnext hc
            fun b hb => hp b (List.mem_cons_of_mem _ hb)
          refine ⟨t, .head hstep hst, OnlyMoved.trans (fun q hq => ?_) hmoved, ht⟩
          simp [hq]

/-- If nothing fails, some run brings everyone to the end. -/
theorem Sound.completes (hU : U.Sound)
    (hall : ∀ p a, .act a ∈ P.script p → U.fails p a = false) :
    ∃ s, Reachable P s ∧ ∀ p, (s.proc p).todo = [] ∧ (s.proc p).failed = none := by
  have hexits : ∀ p, L.length ≤ exits (U.fails p) (P.script p) := by
    intro p
    have h : exits (U.fails p) (P.script p ++ []) = _ := exits_append _ (hall p)
    rw [List.append_nil, hL p] at h
    omega
  obtain ⟨s, hr, hs⟩ := (hU.determined hL).lockstep hL L.length hexits
  obtain ⟨t, hst, ht⟩ := sweep (P := P) (Q := Between L.length)
    (R := fun pr _ => pr.todo = [] ∧ pr.failed = none) (by
      rintro s hr - p ⟨hin, hfail, hlen⟩
      have hproc : s.proc p = ⟨(s.proc p).todo, false, (s.proc p).loc, none⟩ := by
        rw [← hin, ← hfail]
      have hleft := hr.left_add_colls hL p
      simp only [left, hin, hlen] at hleft
      obtain ⟨d, hd⟩ := (hr.wf hL p).suffix
      refine hU.run_to_end hL hr hproc (List.eq_nil_of_length_eq_zero ?_) fun a ha => hall p a ?_
      · simpa using hleft
      · rw [← hd]
        exact List.mem_append_right _ ha) hr hs
  exact ⟨t, hr.steps hst, ht⟩

end Runs

end Publication

end Spmd
