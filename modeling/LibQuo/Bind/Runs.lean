import LibQuo.Bind.Stack
import LibQuo.Lib.Nesting

/-!
Runs of successful calls on one context, when the binding calls of `hwloc` are exact:
the stack holds the binding the context was created with and those of the pushes that
are not yet popped, and the process is bound to the last of them.
-/

namespace LibQuo.Bind
open CMem Nesting

structure Process where
  hwloc : QuoHwloc
  live : Cpuset

inductive Step (hooks : Hooks) : Process → Call × Cpuset → Process → Prop
  | call {p : Process} {h : QuoHwloc} {live : Cpuset} (f : Faults) (c : Call) :
      c.exec hooks f p.hwloc p.live = (.ok (), h, live) → Step hooks p (c, live) ⟨h, live⟩

def noFaults : Faults := fun _ => false

def Process.start (hooks : Hooks) (topo : Topology) (live : Cpuset) : Process :=
  ⟨(create hooks noFaults topo live).2, live⟩

/-- What a call leaves, where nothing fails that the topology does not refuse. -/
def Process.after (hooks : Hooks) (p : Process) (c : Call) : Process :=
  let r := c.exec hooks noFaults p.hwloc p.live
  ⟨r.2.1, r.2.2⟩

/-- A push enters a scope, and a pop leaves it. -/
def scope : Call × Cpuset → Event Unit
  | (.push _ _ _, _) => .enter ()
  | (.pop, _) => .leave ()

/-- A push establishes its binding, on top of those that are pending. -/
def note (saved : List Cpuset) : Call × Cpuset → List Cpuset
  | (.push _ _ _, mask) => saved ++ [mask]
  | (.pop, _) => saved.dropLast

/-- The binding of the beginning, and those of the pushes not yet popped, the oldest
first. -/
def pending (b₀ : Cpuset) (tr : List (Call × Cpuset)) : List Cpuset := tr.foldl note [b₀]

def pushes (tr : List (Call × Cpuset)) : Nat := tr.countP fun e => e.1 ≠ .pop

def pops (tr : List (Call × Cpuset)) : Nat := tr.countP fun e => e.1 = .pop

variable {hooks : Hooks} {b₀ : Cpuset} {p q : Process} {tr : List (Call × Cpuset)}
  {saved : List Cpuset}

theorem Step.after {c : Call} (h : (c.exec hooks noFaults p.hwloc p.live).1 = .ok ()) :
    Step hooks p (c, (p.after hooks c).live) (p.after hooks c) :=
  .call noFaults c (Prod.ext h rfl)

/-- Where runs come to: `saved` is on the stack, and its last one is the binding of the
process. -/
structure Bound (p : Process) (saved : List Cpuset) : Prop where
  holds : p.hwloc.bstack.Holds saved
  last : saved.getLast? = some p.live
  reads : ∀ r ∈ p.hwloc.bstack.reads, r.1 < r.2

theorem Bound.ne_nil (h : Bound p saved) : saved ≠ [] := by
  rintro rfl
  simpa using h.last

/-- A successful call keeps the binding of the process on top of the stack. -/
theorem Bound.step (he : hooks.Exact) {e : Call × Cpuset} (h : Bound p saved)
    (hs : Step hooks p e q) : Bound q (note saved e) := by
  cases hs with
  | @call h' live' f c hx =>
    cases c with
    | push policy type objIndex =>
      obtain ⟨-, hholds, -, hreads, -⟩ := bindPush_ok h.holds hx
      rw [he.get] at hholds
      refine ⟨hholds, by simp [note], ?_⟩
      show ∀ r ∈ h'.bstack.reads, r.1 < r.2
      rw [hreads]
      exact h.reads
    | pop =>
      obtain ⟨-, hholds, hreads, init, below, hlast, hset⟩ := bindPop_ok h.holds hx
      obtain rfl := he.set _ _ _ hset
      refine ⟨hholds, by simp [note, hlast], ?_⟩
      have hlen : saved.length - 1 = init.length + 1 := by
        rw [← List.length_dropLast, hlast, List.length_append, List.length_singleton]
      show ∀ r ∈ h'.bstack.reads, r.1 < r.2
      rw [hreads]
      intro r hr
      rcases List.mem_append.mp hr with hr | hr
      · exact h.reads r hr
      · simp only [List.mem_cons, List.not_mem_nil, or_false] at hr
        rcases hr with rfl | rfl
        · show saved.length - 1 < saved.length
          omega
        · show saved.length - 1 - 1 < saved.length - 1
          omega

theorem length_note (hne : saved ≠ []) (e : Call × Cpuset) :
    ((note saved e).length : Int) = saved.length + pushes [e] - pops [e] := by
  have hpos : 0 < saved.length := List.length_pos_iff.mpr hne
  obtain ⟨c, mask⟩ := e
  cases c with
  | push policy type objIndex => simp [note, pushes, pops]
  | pop =>
    simp only [note, List.length_dropLast, pushes, pops]
    simp
    omega

theorem pushes_cons (e : Call × Cpuset) (tr : List (Call × Cpuset)) :
    pushes (e :: tr) = pushes [e] + pushes tr := by
  simp only [pushes, List.countP_cons, List.countP_nil]
  omega

theorem pops_cons (e : Call × Cpuset) (tr : List (Call × Cpuset)) :
    pops (e :: tr) = pops [e] + pops tr := by
  simp only [pops, List.countP_cons, List.countP_nil]
  omega

/-- A run of successful calls does to the stack what `note` says, one call after the
other. -/
theorem Bound.run (he : hooks.Exact) (hr : Run (Step hooks) p tr q) (h : Bound p saved) :
    Bound q (tr.foldl note saved) ∧
      ((tr.foldl note saved).length : Int) = saved.length + pushes tr - pops tr := by
  induction hr generalizing saved with
  | nil p => exact ⟨h, by simp [pushes, pops]⟩
  | @cons p r q e tr hs hr ih =>
    obtain ⟨hq, hlen⟩ := ih (h.step he hs)
    refine ⟨hq, ?_⟩
    rw [List.foldl_cons, hlen, length_note h.ne_nil, pushes_cons e tr, pops_cons e tr]
    push_cast
    omega

/-- Pushes and pops act on the stack as entering and leaving a scope does. -/
theorem stacked (he : hooks.Exact) : Stacked (Step hooks) scope (fun p => ∃ saved, Bound p saved)
    fun p _ => p.hwloc.bstack.contents where
  keeps _ _ _ h hs := by
    obtain ⟨saved, h⟩ := h
    exact ⟨_, h.step he hs⟩
  enter p e q k h hs hk := by
    obtain ⟨saved, h⟩ := h
    obtain ⟨c, mask⟩ := e
    cases c with
    | push policy type objIndex =>
      have hq := h.step he hs
      exact ⟨some mask, by simp [hq.holds.contents, h.holds.contents, note]⟩
    | pop => simp [scope] at hk
  leave p e q k h hs hk := by
    obtain ⟨saved, h⟩ := h
    obtain ⟨c, mask⟩ := e
    cases c with
    | push policy type objIndex => simp [scope] at hk
    | pop =>
      have hq := h.step he hs
      simp [hq.holds.contents, h.holds.contents, note]
  frame p e q k h hs hk hk' hne := by
    obtain ⟨c, mask⟩ := e
    cases c <;> simp [scope] at hk hk'

/-- What a run leaves: `top` counts the pushes that are not yet popped, their bindings are
on the stack above the one of the beginning, the process is bound to the last of them,
and no slot that is not below `top` was read. -/
structure Kept (b₀ : Cpuset) (tr : List (Call × Cpuset)) (p : Process) : Prop where
  top : (p.hwloc.bstack.top : Int) = 1 + pushes tr - pops tr
  pos : 1 ≤ p.hwloc.bstack.top
  full : p.hwloc.bstack.top ≤ stackSize
  contents : p.hwloc.bstack.contents = (pending b₀ tr).map some
  live : p.hwloc.bstack.slots[p.hwloc.bstack.top - 1]? = some (some p.live)
  reads : ∀ r ∈ p.hwloc.bstack.reads, r.1 < r.2

theorem Bound.live (h : Bound p saved) :
    p.hwloc.bstack.slots[p.hwloc.bstack.top - 1]? = some (some p.live) := by
  have hpos : 0 < saved.length := List.length_pos_iff.mpr h.ne_nil
  have hlast := h.last
  rw [List.getLast?_eq_getElem?] at hlast
  rw [h.holds.slots, h.holds.top, slotsOf, List.getElem?_append_left (by simp; omega),
    List.getElem?_map, hlast]
  rfl

/-- Every run of successful calls on a context keeps the stack in step with the binding
of the process, and a nested part of it restores both. -/
theorem run_kept {f : Faults} {topo : Topology} {h : QuoHwloc} (he : hooks.Exact)
    (hc : create hooks f topo b₀ = (.ok (), h)) (hr : Run (Step hooks) ⟨h, b₀⟩ tr p) :
    Kept b₀ tr p ∧ ∀ mid q, Run (Step hooks) p mid q → Nested (mid.map scope) →
      q.live = p.live ∧ q.hwloc.bstack.slots = p.hwloc.bstack.slots ∧
        q.hwloc.bstack.top = p.hwloc.bstack.top := by
  obtain ⟨-, -, hholds, hreads⟩ := create_ok hc
  rw [he.get] at hholds
  have hstart : Bound ⟨h, b₀⟩ [b₀] := ⟨hholds, rfl, by simp [hreads]⟩
  obtain ⟨hp, hlen⟩ := hstart.run he hr
  constructor
  · refine ⟨?_, ?_, ?_, hp.holds.contents, hp.live, hp.reads⟩
    · rw [hp.holds.top, hlen]
      simp
    · rw [hp.holds.top]
      exact List.length_pos_iff.mpr hp.ne_nil
    · rw [hp.holds.top]
      exact hp.holds.full
  · intro mid q hmid hn
    obtain ⟨hq, -⟩ := hp.run he hmid
    have hne : p.hwloc.bstack.contents ≠ [] := by
      rw [hp.holds.contents]
      simpa using hp.ne_nil
    have hsame := (stacked he).nested hmid hn ⟨_, hp⟩ () hne
    rw [hq.holds.contents, hp.holds.contents] at hsame
    have hsaved := List.map_injective_iff.mpr (Option.some_injective _) hsame
    rw [hsaved] at hq
    have hlive : some q.live = some p.live := by rw [← hq.last, ← hp.last]
    exact ⟨Option.some.inj hlive, hp.holds.same hq.holds⟩

/-- Whatever is given is stored, and is read. -/
def Hooks.plain : Hooks := ⟨fun _ set => some set, fun _ mask => mask⟩

theorem Hooks.plain_exact : Hooks.plain.Exact where
  set _ _ _ h := (Option.some.inj h).symm
  get _ _ := rfl

def twoCores : Topology where
  root := ⟨{0, 1}, {0, 1}⟩
  numanodes := []
  packages := [⟨{0, 1}, {0, 1}⟩]
  cores := [⟨{0}, {0}⟩, ⟨{1}, {1}⟩]
  pus := [⟨{0}, {0}⟩, ⟨{1}, {1}⟩]

/-- A process that is bound to both cores, after a push to the second one. -/
def pushedProcess : Process :=
  (Process.start .plain twoCores {0, 1}).after .plain (.push .provided .core 1)

theorem pushedProcess_kept :
    Kept {0, 1} [(.push .provided .core 1, pushedProcess.live)] pushedProcess ∧
      ∀ mid q, Run (Step .plain) pushedProcess mid q → Nested (mid.map scope) →
        q.live = pushedProcess.live ∧
          q.hwloc.bstack.slots = pushedProcess.hwloc.bstack.slots ∧
          q.hwloc.bstack.top = pushedProcess.hwloc.bstack.top := by
  have hc : create .plain noFaults twoCores {0, 1} =
      (.ok (), (Process.start .plain twoCores {0, 1}).hwloc) :=
    Prod.ext (by decide +kernel) rfl
  exact run_kept Hooks.plain_exact hc (.cons (.after (by decide +kernel)) (.nil _))

end LibQuo.Bind
