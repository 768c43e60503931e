import Mathlib.Data.List.Basic
import Mathlib.Data.List.Infix
import Mathlib.Logic.Function.Basic
import Mathlib.Logic.Relation

/-!
Programs run by all processes of a group at once. A process runs a script:
local actions, which may fail and then end its run, and collective operations.
A collective is entered, which posts a value, and left, which may need the
others to have entered theirs. Collectives on one channel (a communicator, a
barrier object) are matched by their order on that channel.

The main facts: when all scripts name the same collectives in the same order,
leaving the `k`-th one means that the others have entered their `k`-th.
-/

namespace Spmd

inductive Instr (Act Coll : Type)
  | act (a : Act)
  | coll (c : Coll)
  deriving DecidableEq

def colls {Act Coll : Type} : List (Instr Act Coll) → List Coll
  | [] => []
  | .act _ :: t => colls t
  | .coll c :: t => c :: colls t

/-- A script, read in a larger language. -/
def lift {Act Coll Act' Coll' : Type} (f : Act → Act') (g : Coll → Coll') :
    Instr Act Coll → Instr Act' Coll'
  | .act a => .act (f a)
  | .coll c => .coll (g c)

/-- `place a k` for every action `a` of the script, with `k` the number of
collectives before it, counted from `k₀`. -/
def Placed {Act Coll : Type} (place : Act → Nat → Prop) : Nat → List (Instr Act Coll) → Prop
  | _, [] => True
  | k, .act a :: t => place a k ∧ Placed place k t
  | k, .coll _ :: t => Placed place (k + 1) t

/-- The scripts of `n` processes and what their entries do. `root c = none`
means that `c` releases nobody before all have entered it; `some r` that it
waits for `r` alone. `idle p` is what `p` may do to the world outside its run. -/
structure Protocol (n : Nat) (Act Coll Chan Loc World Val ε : Type) where
  script : Fin n → List (Instr Act Coll)
  chan : Coll → Chan
  root : Coll → Option (Fin n)
  exec : Fin n → Act → Loc → World → Except ε Loc × World
  send : Fin n → Coll → Loc → Val
  recv : Fin n → Coll → (Fin n → Option Val) → Loc → Loc
  idle : Fin n → World → World → Prop
  loc₀ : Fin n → Loc
  world₀ : World

/-- A process: what it still has to do, whether it is inside the collective at
the head, its variables, and the error it returned if it did. -/
structure Proc (Act Coll Loc ε : Type) where
  todo : List (Instr Act Coll)
  inside : Bool
  loc : Loc
  failed : Option ε

/-- A group of processes; `posted p` lists the collectives `p` has entered. -/
structure Group (n : Nat) (Act Coll Loc World Val ε : Type) where
  proc : Fin n → Proc Act Coll Loc ε
  posted : Fin n → List (Coll × Val)
  world : World

variable {n : Nat} {Act Coll Chan Loc World Val ε : Type} [DecidableEq Chan]
variable (P : Protocol n Act Coll Chan Loc World Val ε)

def onChan (ch : Chan) (log : List (Coll × Val)) : List Val :=
  log.filterMap fun e => if P.chan e.1 = ch then some e.2 else none

variable (s t : Group n Act Coll Loc World Val ε)

/-- Process `p`, inside `c`, may leave: its match on the channel of `c` has been
entered by everyone, or by the root. -/
def Released (p : Fin n) (c : Coll) : Prop :=
  match P.root c with
  | none => ∀ q, (onChan P (P.chan c) (s.posted p)).length ≤
      (onChan P (P.chan c) (s.posted q)).length
  | some r => (onChan P (P.chan c) (s.posted p)).length ≤
      (onChan P (P.chan c) (s.posted r)).length

/-- The values posted for the collective `c` that `p` is inside of. -/
def received (p : Fin n) (c : Coll) : Fin n → Option Val := fun q =>
  (onChan P (P.chan c) (s.posted q))[(onChan P (P.chan c) (s.posted p)).length - 1]?

/-- The run of `p` has not begun, or is over. -/
def Outside (p : Fin n) : Prop :=
  ((s.proc p).todo = P.script p ∧ (s.proc p).inside = false) ∨
    (s.proc p).todo = [] ∨ (s.proc p).failed.isSome

inductive Step : Group n Act Coll Loc World Val ε → Group n Act Coll Loc World Val ε → Prop
  | act {s p a rest loc loc' w} : s.proc p = ⟨.act a :: rest, false, loc, none⟩ →
      P.exec p a loc s.world = (.ok loc', w) →
      Step s { s with proc := Function.update s.proc p ⟨rest, false, loc', none⟩, world := w }
  | fail {s p a rest loc e w} : s.proc p = ⟨.act a :: rest, false, loc, none⟩ →
      P.exec p a loc s.world = (.error e, w) →
      Step s { s with
        proc := Function.update s.proc p ⟨.act a :: rest, false, loc, some e⟩, world := w }
  | enter {s p c rest loc} : s.proc p = ⟨.coll c :: rest, false, loc, none⟩ →
      Step s { s with
        proc := Function.update s.proc p ⟨.coll c :: rest, true, loc, none⟩
        posted := Function.update s.posted p (s.posted p ++ [(c, P.send p c loc)]) }
  | leave {s p c rest loc} : s.proc p = ⟨.coll c :: rest, true, loc, none⟩ →
      Released P s p c →
      Step s { s with
        proc := Function.update s.proc p ⟨rest, false, P.recv p c (received P s p c) loc, none⟩ }
  | idle {s p w} : Outside P s p → P.idle p s.world w → Step s { s with world := w }

def initial : Group n Act Coll Loc World Val ε where
  proc p := ⟨P.script p, false, P.loc₀ p, none⟩
  posted _ := []
  world := P.world₀

/-- Runs of any number of steps, in any interleaving. -/
abbrev Steps := Relation.ReflTransGen (Step P)

/-- A state some run from the beginning reaches. -/
def Reachable : Prop := Steps P (initial P) s

variable {P s t}

theorem Reachable.initial : Reachable P (initial P) := Relation.ReflTransGen.refl

theorem Reachable.step (h : Reachable P s) (hs : Step P s t) : Reachable P t := h.tail hs

theorem Reachable.steps (h : Reachable P s) (hs : Steps P s t) : Reachable P t := h.trans hs

/-- What holds at the beginning and is kept by every step from a reachable
state holds in every reachable state. -/
theorem Reachable.invariant {I : Group n Act Coll Loc World Val ε → Prop}
    (h₀ : I (Spmd.initial P)) (hstep : ∀ s t, Reachable P s → I s → Step P s t → I t)
    (h : Reachable P s) : I s := by
  induction h with
  | refl => exact h₀
  | tail hr hs ih => exact hstep _ _ hr ih hs

/-- The protocol begun in the world `w`, in which nothing happens outside of the runs. -/
def Protocol.begunIn (P : Protocol n Act Coll Chan Loc World Val ε) (w : World) :
    Protocol n Act Coll Chan Loc World Val ε :=
  { P with
    idle := fun _ _ _ => False
    world₀ := w }

/-- Such a run is one of the protocol, if `w` can come about before anybody begins. -/
theorem Reachable.of_begunIn {w : World}
    (h₀ : Steps P (Spmd.initial P) { Spmd.initial P with world := w })
    (h : Reachable (P.begunIn w) s) : Reachable P s := by
  induction h with
  | refl => exact h₀
  | tail _ hs ih =>
    refine ih.step ?_
    cases hs with
    | act hp hx => exact .act hp hx
    | fail hp hx => exact .fail hp hx
    | enter hp => exact .enter hp
    | leave hp hrel => exact .leave hp hrel
    | idle _ hidle => exact hidle.elim

/-- Whoever has failed has done so in a step, and stands where it did. -/
theorem Reachable.failed_in (h : Reachable P s) {p : Fin n} {e : ε}
    (hf : (s.proc p).failed = some e) : ∃ t a rest loc w, Reachable P t ∧
      t.proc p = ⟨.act a :: rest, false, loc, none⟩ ∧ P.exec p a loc t.world = (.error e, w) ∧
      s.proc p = ⟨.act a :: rest, false, loc, some e⟩ := by
  refine h.invariant (I := fun s => (s.proc p).failed = some e → ∃ t a rest loc w,
    Reachable P t ∧ t.proc p = ⟨.act a :: rest, false, loc, none⟩ ∧
      P.exec p a loc t.world = (.error e, w) ∧ s.proc p = ⟨.act a :: rest, false, loc, some e⟩)
    (fun hf => absurd hf (by simp [Spmd.initial])) ?_ hf
  intro s t hr ih hs hf
  cases hs with
  | @act q a rest loc loc' w hq hx =>
    by_cases hpq : p = q
    · subst hpq
      simp at hf
    · simpa [hpq] using ih (by simpa [hpq] using hf)
  | @fail q a rest loc e' w hq hx =>
    by_cases hpq : p = q
    · subst hpq
      obtain rfl : e' = e := by simpa using hf
      exact ⟨s, a, rest, loc, w, hr, hq, hx, by simp⟩
    · simpa [hpq] using ih (by simpa [hpq] using hf)
  | @enter q c rest loc hq =>
    by_cases hpq : p = q
    · subst hpq
      simp at hf
    · simpa [hpq] using ih (by simpa [hpq] using hf)
  | @leave q c rest loc hq hrel =>
    by_cases hpq : p = q
    · subst hpq
      simp at hf
    · simpa [hpq] using ih (by simpa [hpq] using hf)
  | idle _ _ => exact ih hf

/-! ## Bookkeeping -/

omit [DecidableEq Chan] in
theorem colls_append (xs ys : List (Instr Act Coll)) :
    colls (xs ++ ys) = colls xs ++ colls ys := by
  induction xs with
  | nil => rfl
  | cons x xs ih => cases x <;> simp [colls, ih]

omit [DecidableEq Chan] in
theorem mem_colls {c : Coll} {xs : List (Instr Act Coll)} : c ∈ colls xs ↔ .coll c ∈ xs := by
  induction xs with
  | nil => simp [colls]
  | cons x xs ih => cases x <;> simp [colls, ih]

omit [DecidableEq Chan] in
/-- A collective that occurs once has one place. -/
theorem eq_of_coll_split {c : Coll} {xs tail d rest pre post : List (Instr Act Coll)}
    (hx : xs = pre ++ .coll c :: post) (h : xs ++ tail = d ++ .coll c :: rest)
    (hpre : c ∉ colls pre) (hpost : c ∉ colls (post ++ tail)) : d = pre := by
  rw [mem_colls] at hpre hpost
  rw [hx, List.append_assoc, List.cons_append] at h
  exact ((List.append_cons_inj_of_notMem hpre hpost).mp h).1.symm

omit [DecidableEq Chan] in
theorem colls_acts (as : List Act) : colls (as.map Instr.act : List (Instr Act Coll)) = [] := by
  induction as with
  | nil => rfl
  | cons a as ih => exact ih

omit [DecidableEq Chan] in
theorem placed_append {place : Act → Nat → Prop} {k : Nat} {xs ys : List (Instr Act Coll)} :
    Placed place k (xs ++ ys) ↔ Placed place k xs ∧ Placed place (k + (colls xs).length) ys := by
  induction xs generalizing k with
  | nil => simp [Placed, colls]
  | cons x xs ih =>
    cases x with
    | act a => simp [Placed, colls, ih, and_assoc]
    | coll c => simp [Placed, colls, ih, Nat.add_comm 1, Nat.add_assoc]

omit [DecidableEq Chan] in
theorem placed_acts {place : Act → Nat → Prop} {k : Nat} {as : List Act} :
    Placed place k (as.map Instr.act : List (Instr Act Coll)) ↔ ∀ a ∈ as, place a k := by
  induction as with
  | nil => simp [Placed]
  | cons a as ih => simp [Placed, ih]

omit [DecidableEq Chan] in
theorem Placed.at {place : Act → Nat → Prop} {k : Nat} {a : Act}
    {xs d rest : List (Instr Act Coll)} (h : Placed place k xs) (hx : xs = d ++ .act a :: rest) :
    place a (k + (colls d).length) := by
  rw [hx, placed_append, Placed] at h
  exact h.2.1

theorem colls_suffix {xs ys : List (Instr Act Coll)} (h : xs <:+ ys) : colls xs <:+ colls ys := by
  obtain ⟨zs, rfl⟩ := h
  exact ⟨colls zs, (colls_append zs xs).symm⟩

/-! ## Logs that follow one list of collectives -/

theorem onChan_append (ch : Chan) (xs ys : List (Coll × Val)) :
    onChan P ch (xs ++ ys) = onChan P ch xs ++ onChan P ch ys := by
  simp [onChan]

theorem length_onChan (ch : Chan) (log : List (Coll × Val)) :
    (onChan P ch log).length = (log.map Prod.fst).countP (fun c => P.chan c = ch) := by
  induction log with
  | nil => rfl
  | cons e log ih =>
    by_cases h : P.chan e.1 = ch
    · simp [onChan, h] at ih ⊢
      exact ih
    · simp [onChan, h] at ih ⊢
      exact ih

/-- Of two logs that follow `L` the shorter has the fewer entries on any channel. -/
theorem length_onChan_le {L : List Coll} {xs ys : List (Coll × Val)} (ch : Chan)
    (hx : xs.map Prod.fst <+: L) (hy : ys.map Prod.fst <+: L) (h : xs.length ≤ ys.length) :
    (onChan P ch xs).length ≤ (onChan P ch ys).length := by
  rw [length_onChan, length_onChan]
  have hp : xs.map Prod.fst <+: ys.map Prod.fst :=
    List.prefix_of_prefix_length_le hx hy (by simpa using h)
  exact hp.sublist.countP_le

variable {L : List Coll} {xs ys : List (Coll × Val)} {c : Coll} {v : Val}

/-- A log has a match for the last entry of another on its channel exactly when
it is at least as long. -/
theorem onChan_le_iff (hx : (xs ++ [(c, v)]).map Prod.fst <+: L) (hy : ys.map Prod.fst <+: L) :
    (onChan P (P.chan c) (xs ++ [(c, v)])).length ≤ (onChan P (P.chan c) ys).length ↔
      xs.length < ys.length := by
  constructor
  · intro h
    by_contra hlt
    have hx' : xs.map Prod.fst <+: L := (by simp : xs.map Prod.fst <+: _).trans hx
    have := length_onChan_le (P := P) (P.chan c) hy hx' (not_lt.mp hlt)
    rw [onChan_append, List.length_append] at h
    simp [onChan] at h this
    omega
  · intro h
    exact length_onChan_le _ hx hy (by simpa [Nat.succ_le_iff] using h)

/-- The matching entry is the one at the same place of the whole log. -/
theorem onChan_getElem? (hx : (xs ++ [(c, v)]).map Prod.fst <+: L)
    (hy : ys.map Prod.fst <+: L) :
    (onChan P (P.chan c) ys)[(onChan P (P.chan c) (xs ++ [(c, v)])).length - 1]? =
      ys[xs.length]?.map Prod.snd := by
  have hx' : xs.map Prod.fst <+: L := (by simp : xs.map Prod.fst <+: _).trans hx
  have hone : (onChan P (P.chan c) (xs ++ [(c, v)])).length - 1 =
      (onChan P (P.chan c) xs).length := by
    rw [onChan_append, List.length_append]
    simp [onChan]
  rw [hone]
  by_cases h : xs.length < ys.length
  · have hp : (xs ++ [(c, v)]).map Prod.fst <+: ys.map Prod.fst :=
      List.prefix_of_prefix_length_le hx hy (by simpa [Nat.succ_le_iff] using h)
    obtain ⟨zs, hzs⟩ := hp
    rw [List.map_append, List.append_assoc] at hzs
    obtain ⟨ys₁, ys₂, rfl, h₁, h₂⟩ := List.map_eq_append_iff.mp hzs.symm
    obtain ⟨e, ys₃, rfl, he, -⟩ := List.map_eq_cons_iff.mp h₂
    have hlen : xs.length = ys₁.length := by simpa using (congrArg List.length h₁).symm
    have hcount : (onChan P (P.chan c) xs).length = (onChan P (P.chan c) ys₁).length := by
      rw [length_onChan, length_onChan, h₁]
    have hhead : onChan P (P.chan c) (e :: ys₃) = e.2 :: onChan P (P.chan c) ys₃ := by
      simp only at he
      simp [onChan, he]
    rw [onChan_append, hhead, hcount, hlen, List.getElem?_append_right le_rfl]
    simp
  · have hle := length_onChan_le (P := P) (P.chan c) hy hx' (not_lt.mp h)
    rw [List.getElem?_eq_none hle, List.getElem?_eq_none (not_lt.mp h)]
    rfl

/-! ## What the order of the collectives gives -/

def pending (pr : Proc Act Coll Loc ε) : List Coll :=
  if pr.inside then (colls pr.todo).tail else colls pr.todo

/-- How many collectives `p` has left. -/
def left (s : Group n Act Coll Loc World Val ε) (p : Fin n) : Nat :=
  if (s.proc p).inside then (s.posted p).length - 1 else (s.posted p).length

omit [DecidableEq Chan] in
theorem forall_update {α β : Type} {R : Fin n → α → β → Prop} {f : Fin n → α} {g : Fin n → β}
    {p : Fin n} {x : α} {y : β} (h : ∀ q, R q (f q) (g q)) (hp : R p x y) (q : Fin n) :
    R q (Function.update f p x q) (Function.update g p y q) := by
  by_cases hq : q = p
  · subst hq
    simpa using hp
  · simpa [hq] using h q

/-- How the script of `p`, what it has still to do and what it has posted fit
together, when `L` is the list of collectives of every script. -/
structure Wf (P : Protocol n Act Coll Chan Loc World Val ε) (L : List Coll) (p : Fin n)
    (pr : Proc Act Coll Loc ε) (log : List (Coll × Val)) : Prop where
  suffix : pr.todo <:+ P.script p
  posted : log.map Prod.fst ++ pending pr = L
  inside : pr.inside = true → pr.failed = none ∧
    ∃ c rest log' v, pr.todo = .coll c :: rest ∧ log = log' ++ [(c, v)]
  failed : ∀ e, pr.failed = some e → pr.inside = false ∧ ∃ a rest, pr.todo = .act a :: rest

/-- Everyone the `k`-th collective `c` waits for has entered it. -/
def Matched (P : Protocol n Act Coll Chan Loc World Val ε)
    (s : Group n Act Coll Loc World Val ε) (c : Coll) (k : Nat) : Prop :=
  match P.root c with
  | none => ∀ q, k < (s.posted q).length
  | some r => k < (s.posted r).length

omit [DecidableEq Chan] in
theorem Matched.mono {k : Nat} (h : Matched P s c k)
    (hle : ∀ q, (s.posted q).length ≤ (t.posted q).length) : Matched P t c k := by
  unfold Matched at h ⊢
  split at h
  · exact fun q => (h q).trans_le (hle q)
  · exact h.trans_le (hle _)

theorem posted_length_le (hs : Step P s t) (q : Fin n) :
    (s.posted q).length ≤ (t.posted q).length := by
  cases hs with
  | @enter p c rest loc hp =>
    by_cases hq : q = p
    · subst hq
      simp
    · simp [hq]
  | _ => exact le_rfl

/-- Only leaving a collective raises `left`, and by one. -/
theorem left_step {p : Fin n} (hs : Step P s t) (hlt : left s p < left t p) :
    ∃ c rest, (s.proc p).todo = .coll c :: rest ∧ (s.proc p).inside = true ∧
      Released P s p c ∧ left t p ≤ left s p + 1 := by
  cases hs with
  | @act q a rest loc loc' w hq _ =>
    by_cases hpq : p = q
    · subst hpq
      simp [left, hq] at hlt
    · simp [left, hpq] at hlt
  | @fail q a rest loc e w hq _ =>
    by_cases hpq : p = q
    · subst hpq
      simp [left, hq] at hlt
    · simp [left, hpq] at hlt
  | @enter q c rest loc hq =>
    by_cases hpq : p = q
    · subst hpq
      simp [left, hq] at hlt
    · simp [left, hpq] at hlt
  | @leave q c rest loc hq hrel =>
    by_cases hpq : p = q
    · subst hpq
      refine ⟨c, rest, by simp [hq], by simp [hq], hrel, ?_⟩
      simp only [left, hq, Function.update_self]
      simp
      omega
    · simp [left, hpq] at hlt
  | idle _ _ => exact absurd hlt (lt_irrefl _)

theorem wf_step (h : ∀ p, Wf P L p (s.proc p) (s.posted p)) (hs : Step P s t) :
    ∀ p, Wf P L p (t.proc p) (t.posted p) := by
  cases hs with
  | @act p a rest loc loc' w hp _ =>
    have hw := h p
    rw [hp] at hw
    have := forall_update h (p := p) (x := ⟨rest, false, loc', none⟩) (y := s.posted p)
      ⟨(List.suffix_cons _ _).trans hw.suffix, by simpa [pending, colls] using hw.posted,
        by simp, by simp⟩
    simpa using this
  | @fail p a rest loc e w hp _ =>
    have hw := h p
    rw [hp] at hw
    have := forall_update h (p := p) (x := ⟨.act a :: rest, false, loc, some e⟩)
      (y := s.posted p) ⟨hw.suffix, by simpa [pending] using hw.posted, by simp, by simp⟩
    simpa using this
  | @enter p c rest loc hp =>
    have hw := h p
    rw [hp] at hw
    exact forall_update h ⟨hw.suffix, by simpa [pending, colls] using hw.posted,
      fun _ => ⟨rfl, c, rest, s.posted p, _, rfl, rfl⟩, by simp⟩
  | @leave p c rest loc hp hrel =>
    have hw := h p
    rw [hp] at hw
    have := forall_update h (p := p)
      (x := ⟨rest, false, P.recv p c (received P s p c) loc, none⟩) (y := s.posted p)
      ⟨(List.suffix_cons _ _).trans hw.suffix, by simpa [pending, colls] using hw.posted,
        by simp, by simp⟩
    simpa using this
  | idle _ _ => exact h

section Common

variable (hL : ∀ p, colls (P.script p) = L)
include hL

theorem Reachable.wf (h : Reachable P s) (p : Fin n) : Wf P L p (s.proc p) (s.posted p) := by
  refine h.invariant (I := fun s => ∀ p, Wf P L p (s.proc p) (s.posted p)) ?_
    (fun s t _ hI hs => wf_step hI hs) p
  intro p
  exact ⟨List.suffix_rfl, by simp [Spmd.initial, pending, hL], by simp [Spmd.initial],
    by simp [Spmd.initial]⟩

theorem Reachable.posted_prefix (h : Reachable P s) (p : Fin n) :
    (s.posted p).map Prod.fst <+: L :=
  ⟨_, (h.wf hL p).posted⟩

/-- Inside `c`, the last thing posted is `c`, and everything before it has been
left. -/
theorem Reachable.inside (h : Reachable P s) {p : Fin n} {c : Coll}
    {rest : List (Instr Act Coll)} (hp : (s.proc p).todo = .coll c :: rest)
    (hin : (s.proc p).inside = true) :
    ∃ log v, s.posted p = log ++ [(c, v)] ∧ left s p = log.length ∧ L[log.length]? = some c := by
  have hw := h.wf hL p
  obtain ⟨-, c', rest', log, v, htodo, hlog⟩ := hw.inside hin
  rw [hp] at htodo
  obtain ⟨hc, -⟩ := List.cons.inj htodo
  obtain rfl : c = c' := by simpa using hc
  refine ⟨log, v, hlog, by simp [left, hin, hlog], ?_⟩
  rw [← hw.posted, hlog]
  simp

/-- Inside `c`, a process is released exactly when its match is complete. -/
theorem Reachable.released_iff (h : Reachable P s) {p : Fin n} {c : Coll}
    {rest : List (Instr Act Coll)} (hp : (s.proc p).todo = .coll c :: rest)
    (hin : (s.proc p).inside = true) :
    Released P s p c ↔ Matched P s c (left s p) := by
  obtain ⟨log, v, hlog, hleft, -⟩ := h.inside hL hp hin
  have hpre := h.posted_prefix hL p
  rw [hlog] at hpre
  unfold Released Matched
  rw [hlog, hleft]
  split
  · exact forall_congr' fun q => onChan_le_iff hpre (h.posted_prefix hL q)
  · exact onChan_le_iff hpre (h.posted_prefix hL _)

theorem Reachable.received_eq (h : Reachable P s) {p : Fin n} {c : Coll}
    {rest : List (Instr Act Coll)} (hp : (s.proc p).todo = .coll c :: rest)
    (hin : (s.proc p).inside = true) (q : Fin n) :
    received P s p c q = (s.posted q)[left s p]?.map Prod.snd := by
  obtain ⟨log, v, hlog, hleft, -⟩ := h.inside hL hp hin
  have hpre := h.posted_prefix hL p
  rw [hlog] at hpre
  unfold received
  rw [hlog, hleft]
  exact onChan_getElem? hpre (h.posted_prefix hL q)

/-- **Happens before.** Once some process has left the `k`-th collective, everyone
has entered it, or its root has. -/
theorem Reachable.ordered (h : Reachable P s) {p : Fin n} {k : Nat} {c : Coll}
    (hk : k < left s p) (hc : L[k]? = some c) : Matched P s c k := by
  refine h.invariant (I := fun s => ∀ p k c, k < left s p → L[k]? = some c → Matched P s c k)
    (by simp [left, Spmd.initial]) ?_ p k c hk hc
  intro s t hr ih hs p k c hk hc
  by_cases hold : k < left s p
  · exact (ih p k c hold hc).mono (posted_length_le hs)
  · obtain ⟨c', rest, hp, hin, hrel, hleft⟩ := left_step hs (lt_of_le_of_lt (not_lt.mp hold) hk)
    obtain ⟨log, v, -, hlog, hget⟩ := hr.inside hL hp hin
    obtain rfl : k = left s p := by omega
    rw [hlog, hget] at hc
    obtain rfl : c' = c := by simpa using hc
    exact ((hr.released_iff hL hp hin).mp hrel).mono (posted_length_le hs)

theorem Reachable.left_add_colls (h : Reachable P s) (p : Fin n) :
    left s p + (colls (s.proc p).todo).length = L.length := by
  have hw := h.wf hL p
  have hlen := congrArg List.length hw.posted
  by_cases hin : (s.proc p).inside = true
  · obtain ⟨-, c, rest, log, v, htodo, hlog⟩ := hw.inside hin
    simp [pending, hin, htodo, hlog, colls] at hlen
    simp [left, hin, htodo, hlog, colls]
    omega
  · simpa [pending, hin, left] using hlen

/-- What `p` has executed, against what it has left. -/
theorem Reachable.left_eq (h : Reachable P s) {p : Fin n} {d : List (Instr Act Coll)}
    (hd : P.script p = d ++ (s.proc p).todo) : left s p = (colls d).length := by
  have h₁ := h.left_add_colls hL p
  have h₂ := congrArg List.length (hL p)
  rw [hd, colls_append, List.length_append] at h₂
  omega

/-- An action that comes up does so at its place. -/
theorem Reachable.place (h : Reachable P s) {p : Fin n} {a : Act}
    {rest : List (Instr Act Coll)} {place : Act → Nat → Prop}
    (hplace : Placed place 0 (P.script p)) (hp : (s.proc p).todo = .act a :: rest) :
    place a (left s p) := by
  obtain ⟨d, hd⟩ := (h.wf hL p).suffix
  rw [h.left_eq hL hd.symm]
  rw [hp] at hd
  simpa using hplace.at hd.symm

variable {p : Fin n} {pre post : List (Instr Act Coll)} {c : Coll}

/-- Past a collective. -/
theorem Reachable.todo_of_left (h : Reachable P s) (hc : P.script p = pre ++ .coll c :: post)
    (hlt : (colls pre).length < left s p) : (s.proc p).todo <:+ post := by
  have h₁ := h.left_add_colls hL p
  have h₂ := congrArg List.length (hL p)
  rw [hc, colls_append, List.length_append] at h₂
  have hpost : .coll c :: post <:+ P.script p := ⟨pre, hc.symm⟩
  simp only [colls, List.length_cons] at h₂
  rcases List.suffix_or_suffix_of_suffix (h.wf hL p).suffix hpost with hs | hs
  · rcases List.suffix_cons_iff.mp hs with heq | hs
    · rw [heq] at h₁
      simp only [colls, List.length_cons] at h₁
      omega
    · exact hs
  · have := (colls_suffix hs).length_le
    simp only [colls, List.length_cons] at this
    omega

/-- Past a collective, it and all before it are done. -/
theorem Reachable.done_of_left (h : Reachable P s) (hc : P.script p = pre ++ .coll c :: post)
    (hlt : (colls pre).length < left s p) {d : List (Instr Act Coll)}
    (hd : P.script p = d ++ (s.proc p).todo) :
    ∃ e, d = pre ++ .coll c :: e ∧ post = e ++ (s.proc p).todo := by
  obtain ⟨e, rfl⟩ := h.todo_of_left hL hc hlt
  rw [hd, ← List.cons_append, ← List.append_assoc] at hc
  exact ⟨e, List.append_cancel_right hc, rfl⟩

/-- Not past a collective. -/
theorem Reachable.todo_of_not_left (h : Reachable P s)
    (hc : P.script p = pre ++ .coll c :: post) (hle : left s p ≤ (colls pre).length) :
    .coll c :: post <:+ (s.proc p).todo := by
  have h₁ := h.left_add_colls hL p
  have h₂ := congrArg List.length (hL p)
  rw [hc, colls_append, List.length_append] at h₂
  have hpost : .coll c :: post <:+ P.script p := ⟨pre, hc.symm⟩
  simp only [colls, List.length_cons] at h₂
  rcases List.suffix_or_suffix_of_suffix (h.wf hL p).suffix hpost with hs | hs
  · rcases List.suffix_cons_iff.mp hs with heq | hs
    · rw [heq]
    · have := (colls_suffix hs).length_le
      omega
  · exact hs

/-- Having entered a collective. -/
theorem Reachable.todo_of_posted (h : Reachable P s)
    (hc : P.script p = pre ++ .coll c :: post) (hlt : (colls pre).length < (s.posted p).length) :
    (s.proc p).todo <:+ .coll c :: post := by
  by_cases hleft : (colls pre).length < left s p
  · exact (h.todo_of_left hL hc hleft).trans (List.suffix_cons _ _)
  · obtain ⟨mid, hmid⟩ := h.todo_of_not_left hL hc (not_lt.mp hleft)
    have hin : (s.proc p).inside = true := by
      by_contra hin
      simp only [left, hin] at hleft
      exact hleft hlt
    obtain ⟨-, c', rest, log, v, htodo, hlog⟩ := (h.wf hL p).inside hin
    have h₁ := h.left_add_colls hL p
    have h₂ := congrArg List.length (hL p)
    rw [hc, colls_append, List.length_append] at h₂
    simp [left, hin, hlog] at h₁ hleft
    simp [hlog] at hlt
    cases mid with
    | nil => exact ⟨[], hmid.symm⟩
    | cons x mid =>
      rw [htodo] at hmid
      obtain ⟨rfl, hrest⟩ := List.cons.inj hmid
      have hrest' : mid ++ .coll c :: post = rest := hrest
      rw [htodo, ← hrest'] at h₁
      simp only [colls, colls_append, List.length_cons, List.length_append] at h₁ h₂
      omega

end Common

end Spmd
