import LibQuo.Bind.Runs

/-!
Several contexts in one process: each has its own stack, and all of them drive the same
binding. A pop establishes what its own context has saved last, which is the binding of
before the matching push exactly when no other context had rebound the process by then.
-/

namespace LibQuo.Bind
open CMem Nesting

structure System where
  contexts : List QuoHwloc
  live : Cpuset

/-- What a process does: `QUO_create`, with the topology it loads, and calls on a
context. -/
inductive Action
  | create (topo : Topology)
  | call (k : Nat) (c : Call)
  deriving DecidableEq

inductive Acts (hooks : Hooks) : System → Action → System → Prop
  | create {s : System} {h : QuoHwloc} (f : Faults) (topo : Topology) :
      create hooks f topo s.live = (.ok (), h) →
      Acts hooks s (.create topo) { s with contexts := s.contexts ++ [h] }
  | call {s : System} {h h' : QuoHwloc} {live : Cpuset} (f : Faults) (k : Nat) (c : Call) :
      s.contexts[k]? = some h → c.exec hooks f h s.live = (.ok (), h', live) →
      Acts hooks s (.call k c) ⟨s.contexts.set k h', live⟩

/-- An action in a run, with the states around it. -/
structure Entry where
  before : System
  action : Action
  after : System

inductive Moves (hooks : Hooks) : System → Entry → System → Prop
  | act {s t : System} {a : Action} : Acts hooks s a t → Moves hooks s ⟨s, a, t⟩ t

/-- A push enters a scope of its context, and a pop leaves it. -/
def event (e : Entry) : Event Nat :=
  match e.action with
  | .create _ => .other
  | .call k (.push _ _ _) => .enter k
  | .call k .pop => .leave k

/-- A push on context `k` and its pop: what is between them is nested. -/
def Pair (tr : List Entry) (k : Nat) (e e' : Entry) : Prop :=
  ∃ u mid v, tr = u ++ e :: (mid ++ e' :: v) ∧ event e = .enter k ∧ event e' = .leave k ∧
    Nested (mid.map event)

/-- What was saved last in context `k` is, once `hwloc` stores it, the binding in force. -/
def Current (hooks : Hooks) (s : System) (k : Nat) : Prop :=
  ∃ h ∈ s.contexts[k]?, ∃ set, h.bstack.contents.getLast? = some (some set) ∧
    hooks.setCpubind h.topo set = some s.live

def System.stack (s : System) (k : Nat) : List (Option Cpuset) :=
  match s.contexts[k]? with
  | some h => h.bstack.contents
  | none => []

def System.Saved (s : System) : Prop :=
  ∀ h ∈ s.contexts, ∃ saved, saved ≠ [] ∧ h.bstack.Holds saved

variable {hooks : Hooks} {s t : System} {k : Nat} {e : Entry}

theorem saved_set {h' : QuoHwloc} {live : Cpuset} {saved : List Cpuset} (hs : s.Saved)
    (hne : saved ≠ []) (hh : h'.bstack.Holds saved) :
    (⟨s.contexts.set k h', live⟩ : System).Saved := by
  intro c hc
  rcases List.mem_or_eq_of_mem_set hc with hc | rfl
  · exact hs c hc
  · exact ⟨saved, hne, hh⟩

theorem stack_set_self {h h' : QuoHwloc} {live : Cpuset} (hk : s.contexts[k]? = some h) :
    (⟨s.contexts.set k h', live⟩ : System).stack k = h'.bstack.contents := by
  have hlt : k < s.contexts.length := (List.getElem?_eq_some_iff.mp hk).1
  simp [System.stack, hlt]

theorem stack_set_ne {h' : QuoHwloc} {live : Cpuset} {j : Nat} (hj : j ≠ k) :
    (⟨s.contexts.set k h', live⟩ : System).stack j = s.stack j := by
  simp [System.stack, List.getElem?_set_ne (Ne.symm hj)]

/-- What a successful push does to the context it is made on. -/
theorem acts_push {policy : Policy} {type : ObjType} {objIndex : Int32} (hs : s.Saved)
    (ha : Acts hooks s (.call k (.push policy type objIndex)) t) :
    ∃ h h' saved set, s.contexts[k]? = some h ∧ h'.topo = h.topo ∧ saved ≠ [] ∧
      h.bstack.Holds saved ∧ h'.bstack.Holds (saved ++ [set]) ∧
      t = ⟨s.contexts.set k h', t.live⟩ := by
  cases ha with
  | @call h h' live f k c hk hx =>
    obtain ⟨saved, hne, hh⟩ := hs h (List.mem_of_getElem? hk)
    obtain ⟨htopo, hholds, -⟩ := bindPush_ok hh hx
    exact ⟨h, h', saved, _, hk, htopo, hne, hh, hholds, rfl⟩

/-- What a successful pop does to the context it is made on, and to the process. -/
theorem acts_pop (hs : s.Saved) (ha : Acts hooks s (.call k .pop) t) :
    ∃ h h' init set, s.contexts[k]? = some h ∧ h'.topo = h.topo ∧
      s.stack k ≠ [] ∧ (s.stack k).dropLast = (init ++ [set]).map some ∧
      h'.bstack.Holds (init ++ [set]) ∧
      hooks.setCpubind h.topo set = some t.live ∧ t = ⟨s.contexts.set k h', t.live⟩ := by
  cases ha with
  | @call h h' live f k c hk hx =>
    obtain ⟨saved, hne, hh⟩ := hs h (List.mem_of_getElem? hk)
    obtain ⟨htopo, hholds, -, init, set, hlast, hset⟩ := bindPop_ok hh hx
    have hstack : s.stack k = saved.map some := by simp [System.stack, hk, hh.contents]
    refine ⟨h, h', init, set, hk, htopo, by simpa [hstack] using hne, ?_, hlast ▸ hholds, hset, rfl⟩
    rw [hstack, ← hlast, List.map_dropLast]

theorem moves_saved (hs : s.Saved) (hm : Moves hooks s e t) : t.Saved := by
  cases hm with
  | @act _ a ha =>
    cases a with
    | create topo =>
      cases ha with
      | @create h f topo hc =>
        obtain ⟨-, -, hholds, -⟩ := create_ok hc
        intro c hmem
        rcases List.mem_append.mp hmem with hmem | hmem
        · exact hs c hmem
        · obtain rfl := List.mem_singleton.mp hmem
          exact ⟨_, List.cons_ne_nil _ _, hholds⟩
    | call k c =>
      cases c with
      | push policy type objIndex =>
        obtain ⟨h, h', saved, set, -, -, -, -, hholds, ht⟩ := acts_push hs ha
        rw [ht]
        exact saved_set hs (by simp) hholds
      | pop =>
        obtain ⟨h, h', init, set, -, -, -, -, hholds, -, ht⟩ := acts_pop hs ha
        rw [ht]
        exact saved_set hs (by simp) hholds

theorem moves_enter (hm : Moves hooks s e t) (he : event e = .enter k) :
    ∃ policy type objIndex, e = ⟨s, .call k (.push policy type objIndex), t⟩ ∧
      Acts hooks s (.call k (.push policy type objIndex)) t := by
  cases hm with
  | @act _ a ha =>
    cases a with
    | create topo => simp [event] at he
    | call j c =>
      cases c with
      | pop => simp [event] at he
      | push policy type objIndex =>
        obtain rfl : j = k := by simpa [event] using he
        exact ⟨policy, type, objIndex, rfl, ha⟩

theorem moves_leave (hm : Moves hooks s e t) (he : event e = .leave k) :
    e = ⟨s, .call k .pop, t⟩ ∧ Acts hooks s (.call k .pop) t := by
  cases hm with
  | @act _ a ha =>
    cases a with
    | create topo => simp [event] at he
    | call j c =>
      cases c with
      | push policy type objIndex => simp [event] at he
      | pop =>
        obtain rfl : j = k := by simpa [event] using he
        exact ⟨rfl, ha⟩

/-- The stacks of the contexts are the stacks of their scopes. -/
theorem contexts_stacked : Stacked (Moves hooks) event System.Saved System.stack where
  keeps _ _ _ hs hm := moves_saved hs hm
  enter s e t k hs hm he := by
    obtain ⟨policy, type, objIndex, rfl, ha⟩ := moves_enter hm he
    obtain ⟨h, h', saved, set, hk, -, -, hh, hh', ht⟩ := acts_push hs ha
    refine ⟨some set, ?_⟩
    have hstack : s.stack k = saved.map some := by simp [System.stack, hk, hh.contents]
    rw [ht, stack_set_self hk, hh'.contents, hstack]
    simp
  leave s e t k hs hm he := by
    obtain ⟨rfl, ha⟩ := moves_leave hm he
    obtain ⟨h, h', init, set, hk, -, -, hstack, hh', -, ht⟩ := acts_pop hs ha
    rw [ht, stack_set_self hk, hh'.contents, hstack]
  frame s e t j hs hm he he' hj := by
    cases hm with
    | @act _ a ha =>
      cases a with
      | create topo =>
        cases ha with
        | @create h f topo hc =>
          have hlt : j < s.contexts.length := by
            by_contra hge
            simp [System.stack, List.getElem?_eq_none (Nat.not_lt.mp hge)] at hj
          simp [System.stack, List.getElem?_append_left hlt]
      | call k c =>
        have hne : j ≠ k := by
          rintro rfl
          cases c <;> simp [event] at he he'
        cases ha with
        | call f k c hk hx => exact stack_set_ne hne

/-- A context keeps its topology. -/
theorem moves_topo {topo : Topology} (hs : s.Saved) (hm : Moves hooks s e t)
    (hk : ∃ h ∈ s.contexts[k]?, h.topo = topo) : ∃ h ∈ t.contexts[k]?, h.topo = topo := by
  obtain ⟨h, hh, rfl⟩ := hk
  have hlt : k < s.contexts.length := (List.getElem?_eq_some_iff.mp hh).1
  cases hm with
  | @act _ a ha =>
    have hset {j : Nat} {c c' : QuoHwloc} (hj : s.contexts[j]? = some c) (htopo : c'.topo = c.topo)
        {live : Cpuset} (ht : t = ⟨s.contexts.set j c', live⟩) :
        ∃ h' ∈ t.contexts[k]?, h'.topo = h.topo := by
      rw [ht]
      by_cases hjk : j = k
      · subst hjk
        obtain rfl := Option.some.inj (hj.symm.trans hh)
        exact ⟨c', by simp [hlt], htopo⟩
      · exact ⟨h, by simpa [List.getElem?_set_ne hjk] using hh, rfl⟩
    cases a with
    | create topo =>
      cases ha with
      | create f topo hc =>
        exact ⟨h, by simpa [List.getElem?_append_left hlt] using hh, rfl⟩
    | call j c =>
      cases c with
      | push policy type objIndex =>
        obtain ⟨c, c', saved, set, hj, htopo, -, -, -, ht⟩ := acts_push hs ha
        exact hset hj htopo ht
      | pop =>
        obtain ⟨c, c', init, set, hj, htopo, -, -, -, -, ht⟩ := acts_pop hs ha
        exact hset hj htopo ht

/-- A pop gives back the binding of before its push exactly when that was what the
context had saved last. -/
theorem pair_restores_iff {q r : System} {policy : Policy} {type : ObjType} {objIndex : Int32}
    {mid : List Entry} (hs : s.Saved)
    (hpush : Acts hooks s (.call k (.push policy type objIndex)) q)
    (hmid : Run (Moves hooks) q mid r) (hn : Nested (mid.map event))
    (hpop : Acts hooks r (.call k .pop) t) : t.live = s.live ↔ Current hooks s k := by
  obtain ⟨h, h', saved, set, hk, htopo, hne, hh, hh', hq⟩ := acts_push hs hpush
  have hqs : q.Saved := moves_saved hs (.act hpush)
  have hrs : r.Saved := hmid.invariant (fun _ _ _ hs hm => moves_saved hs hm) hqs
  have hstack : q.stack k = (saved ++ [set]).map some := by
    rw [hq, stack_set_self hk, hh'.contents]
  have hr : r.stack k = q.stack k := by
    refine contexts_stacked.nested hmid hn hqs k ?_
    simp [hstack]
  obtain ⟨c, hc, htopo'⟩ : ∃ c ∈ r.contexts[k]?, c.topo = h.topo := by
    have hkeeps := hmid.invariant (I := fun u => u.Saved ∧ ∃ c ∈ u.contexts[k]?, c.topo = h.topo)
      (fun u e v hu hm => ⟨moves_saved hu.1 hm, moves_topo hu.1 hm hu.2⟩)
    refine (hkeeps ⟨hqs, moves_topo hs (.act hpush) ⟨h, hk, rfl⟩⟩).2
  obtain ⟨c', c'', init, below, hc', -, -, hdrop, -, hset, -⟩ := acts_pop hrs hpop
  obtain rfl : c = c' := Option.some.inj (hc.symm.trans hc')
  have hsaved : saved = init ++ [below] := by
    rw [hr, hstack] at hdrop
    simp only [List.map_append, List.map_cons, List.map_nil, List.dropLast_concat] at hdrop
    exact List.map_injective_iff.mpr (Option.some_injective _) (by simpa using hdrop)
  have hlast : h.bstack.contents.getLast? = some (some below) := by
    rw [hh.contents, hsaved]
    simp
  rw [htopo'] at hset
  constructor
  · intro hlive
    exact ⟨h, hk, below, hlast, by rw [hset, hlive]⟩
  · rintro ⟨h₁, hh₁, below₁, hlast₁, hset₁⟩
    obtain rfl := Option.some.inj (hk.symm.trans hh₁)
    obtain rfl := Option.some.inj (Option.some.inj (hlast.symm.trans hlast₁))
    exact Option.some.inj (hset.symm.trans hset₁)

/-- Every pop of a run gives back the binding of before its push. -/
def Restores (tr : List Entry) : Prop :=
  ∀ k e e', Pair tr k e e' → e'.after.live = e.before.live

/-- Every push of a run that is popped again is made on a context that has saved the
binding in force. -/
def PushesCurrent (hooks : Hooks) (tr : List Entry) : Prop :=
  ∀ k e e', Pair tr k e e' → Current hooks e.before k

/-- The pops of a run restore exactly if its pushes are made on contexts that are
current. -/
theorem restores_iff {b₀ : Cpuset} {tr : List Entry} (hr : Run (Moves hooks) ⟨[], b₀⟩ tr s) :
    Restores tr ↔ PushesCurrent hooks tr := by
  refine forall_congr' fun k => forall_congr' fun e => forall_congr' fun e' => ?_
  apply imp_congr_right
  rintro ⟨u, mid, v, rfl, he, he', hn⟩
  have hstart : (⟨[], b₀⟩ : System).Saved := by simp [System.Saved]
  obtain ⟨p, q, r, t, hu, hpush, hmid, hpop, -⟩ := hr.pair
  have hp : p.Saved := hu.invariant (fun _ _ _ hs hm => moves_saved hs hm) hstart
  obtain ⟨policy, type, objIndex, rfl, ha⟩ := moves_enter hpush he
  obtain ⟨rfl, ha'⟩ := moves_leave hpop he'
  exact pair_restores_iff hp ha hmid hn ha'

def System.next (hooks : Hooks) (f : Faults) (s : System) : Action → Option System
  | .create topo =>
    match create hooks f topo s.live with
    | (.ok (), h) => some { s with contexts := s.contexts ++ [h] }
    | _ => none
  | .call k c =>
    match s.contexts[k]? with
    | none => none
    | some h =>
      match c.exec hooks f h s.live with
      | (.ok (), h', live) => some ⟨s.contexts.set k h', live⟩
      | _ => none

theorem acts_of_next {f : Faults} {a : Action} (h : s.next hooks f a = some t) :
    Acts hooks s a t := by
  cases a with
  | create topo =>
    simp only [System.next] at h
    split at h
    · next c hc =>
      obtain rfl := Option.some.inj h
      exact .create f topo hc
    · simp at h
  | call k c =>
    simp only [System.next] at h
    split at h
    · simp at h
    · next c hk =>
      split at h
      · next c' live hx =>
        obtain rfl := Option.some.inj h
        exact .call f k _ hk hx
      · simp at h

def System.trace (hooks : Hooks) (f : Faults) : System → List Action → Option (List Entry)
  | _, [] => some []
  | s, a :: as =>
    match s.next hooks f a with
    | none => none
    | some t => (t.trace hooks f as).map (⟨s, a, t⟩ :: ·)

theorem run_of_trace {f : Faults} {as : List Action} {tr : List Entry}
    (h : s.trace hooks f as = some tr) : ∃ t, Run (Moves hooks) s tr t := by
  induction as generalizing s tr with
  | nil =>
    obtain rfl := Option.some.inj h
    exact ⟨s, .nil s⟩
  | cons a as ih =>
    simp only [System.trace] at h
    split at h
    · simp at h
    · next t hnext =>
      obtain ⟨es, hes, rfl⟩ := Option.map_eq_some_iff.mp h
      obtain ⟨u, hu⟩ := ih hes
      exact ⟨u, .cons (.act (acts_of_next hnext)) hu⟩

/-- An application and a library, each with its context; the application calls the
library while it is bound to the first core. -/
def libraryActions : List Action :=
  [.create twoCores, .create twoCores, .call 0 (.push .provided .core 0),
    .call 1 (.push .provided .core 1), .call 1 .pop, .call 0 .pop]

def libraryTrace : List Entry :=
  (System.trace .bundled noFaults ⟨[], {0, 1}⟩ libraryActions).get (by decide +kernel)

theorem libraryTrace_restores_iff :
    Restores libraryTrace ↔ PushesCurrent .bundled libraryTrace := by
  obtain ⟨s, hs⟩ := run_of_trace (Option.some_get _).symm
  exact restores_iff hs

/-- The library leaves the application bound to both cores. -/
theorem libraryTrace_loses :
    (∃ s, Run (Moves .bundled) ⟨[], {0, 1}⟩ libraryTrace s) ∧ Nested (libraryTrace.map event) ∧
      ¬Restores libraryTrace := by
  have hrun : ∃ s, Run (Moves .bundled) ⟨[], {0, 1}⟩ libraryTrace s :=
    run_of_trace (Option.some_get _).symm
  have hevents : libraryTrace.map event =
      [.other, .other, .enter 0, .enter 1, .leave 1, .leave 0] := by decide +kernel
  have hbefore : libraryTrace.map (fun e => e.before.live) =
      [{0, 1}, {0, 1}, {0, 1}, {0}, {1}, {0, 1}] := by decide +kernel
  have hafter : libraryTrace.map (fun e => e.after.live) =
      [{0, 1}, {0, 1}, {0}, {1}, {0, 1}, {0, 1}] := by decide +kernel
  refine ⟨hrun, ?_, ?_⟩
  · rw [hevents]
    exact .other (.other (.scope 0 (.scope 1 .nil .nil) .nil))
  · generalize libraryTrace = tr at hevents hbefore hafter
    obtain ⟨a, tr, rfl, -, hevents⟩ := List.map_eq_cons_iff.mp hevents
    obtain ⟨b, tr, rfl, -, hevents⟩ := List.map_eq_cons_iff.mp hevents
    obtain ⟨c, tr, rfl, -, hevents⟩ := List.map_eq_cons_iff.mp hevents
    obtain ⟨d, tr, rfl, henter, hevents⟩ := List.map_eq_cons_iff.mp hevents
    obtain ⟨e, v, rfl, hleave, -⟩ := List.map_eq_cons_iff.mp hevents
    simp only [List.map_cons, List.cons.injEq] at hbefore hafter
    obtain ⟨-, -, -, hold, -⟩ := hbefore
    obtain ⟨-, -, -, -, hnew, -⟩ := hafter
    intro hr
    have hlive := hr 1 d e ⟨[a, b, c], [], v, rfl, henter, hleave, .nil⟩
    rw [hold, hnew] at hlive
    exact absurd hlive (by decide)

end LibQuo.Bind
