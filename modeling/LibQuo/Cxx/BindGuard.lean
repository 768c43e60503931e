import LibQuo.Bind.Cover
import LibQuo.Lib.Scopes

/-!
The C++ interface: `BindGuard` pushes a binding in its constructor and pops it in its
destructor. Both throw if `libquo` reports an error; the destructor, which must not throw,
ends the program then.
-/

namespace LibQuo.Cxx
open LibQuo.Bind CMem Scopes

inductive ObjectType
  | machine
  | node
  | socket
  | core
  | processingUnit
  deriving DecidableEq, Repr

inductive BindPushPolicy
  | provided
  | object
  deriving DecidableEq, Repr

/-- `map_to_quo`. The name that it has for a NUMA node, `quoObjNode`, is not one of `quo.h`. -/
def ObjectType.mapToQuo (quoObjNode : ObjType) : ObjectType → ObjType
  | .machine => .machine
  | .node => quoObjNode
  | .socket => .socket
  | .core => .core
  | .processingUnit => .pu

def BindPushPolicy.mapToQuo : BindPushPolicy → Policy
  | .provided => .provided
  | .object => .obj

structure GuardArgs where
  policy : BindPushPolicy
  type : ObjectType
  index : Int32

/-- A process with a context, and how many calls it has made. -/
structure State where
  process : Process
  calls : Nat

variable (hooks : Hooks) (faults : Nat → Faults) (quoObjNode : ObjType)

/-- The next call, and what fails in it. -/
def State.attempt (s : State) (c : Call) : Attempt := ⟨s.process, c, faults s.calls⟩

/-- A member function of a `Context` that throws if the call fails. -/
def State.call (s : State) (c : Call) : Bool × State :=
  ((s.attempt faults c).result hooks = .ok (), ⟨(s.attempt faults c).after hooks, s.calls + 1⟩)

/-- The call of `Context::bind_push`. -/
def GuardArgs.call (args : GuardArgs) : Call :=
  .push args.policy.mapToQuo (args.type.mapToQuo quoObjNode) args.index

/-- `BindGuard`: its constructor and its destructor. -/
def bindGuard : Resource GuardArgs State where
  acquire args s := s.call hooks faults (args.call quoObjNode)
  release s := s.call hooks faults .pop

def stack (s : State) : List (Option Cpuset) := s.process.hwloc.bstack.contents

/-- The context has its topology, and its stack is in order. -/
def Ready (topo : Topology) (s : State) : Prop :=
  s.process.hwloc.topo = topo ∧ ∃ saved, s.process.hwloc.bstack.Holds saved

variable {hooks faults quoObjNode} {topo : Topology} {s : State}

/-- What a push of a guard does to the stack. -/
theorem push_ready (args : GuardArgs) (hs : Ready topo s) :
    Ready topo ((bindGuard hooks faults quoObjNode).acquire args s).2 ∧
      (((bindGuard hooks faults quoObjNode).acquire args s).1 = true →
        ∃ x, stack ((bindGuard hooks faults quoObjNode).acquire args s).2 = stack s ++ [x]) ∧
      (((bindGuard hooks faults quoObjNode).acquire args s).1 = false →
        stack ((bindGuard hooks faults quoObjNode).acquire args s).2 = stack s) := by
  obtain ⟨htopo, saved, hholds⟩ := hs
  simp only [bindGuard, State.call, stack, Ready, decide_eq_true_iff, decide_eq_false_iff_not]
  rcases push_cases (a := s.attempt faults (args.call quoObjNode)) hooks rfl hholds with
    ⟨hfail, hsame, -⟩ | ⟨mask, -, -, ⟨-, hok, htopo', set, hset⟩ | ⟨-, hfail, hsame⟩⟩
  · rw [hsame]
    exact ⟨⟨htopo, saved, hholds⟩, fun hok => absurd hok hfail, fun _ => rfl⟩
  · refine ⟨⟨htopo'.trans htopo, _, hset⟩, fun _ => ⟨some set, ?_⟩, fun hfail => absurd hok hfail⟩
    rw [hset.contents, hholds.contents, List.map_append]
    rfl
  · rw [hsame]
    exact ⟨⟨htopo, saved, hholds⟩, fun hok => absurd hok hfail, fun _ => rfl⟩

/-- What a pop of a guard does to it. -/
theorem pop_ready {saved : List Cpuset} (htopo : s.process.hwloc.topo = topo)
    (hs : s.process.hwloc.bstack.Holds saved) :
    Ready topo ((bindGuard hooks faults quoObjNode).release s).2 ∧
      (((bindGuard hooks faults quoObjNode).release s).1 = true →
        ((bindGuard hooks faults quoObjNode).release s).2.process.hwloc.bstack.Holds
            saved.dropLast ∧
          ∃ init below, saved.dropLast = init ++ [below] ∧ hooks.setCpubind topo below =
            some ((bindGuard hooks faults quoObjNode).release s).2.process.live) := by
  subst htopo
  simp only [bindGuard, State.call, Ready, decide_eq_true_iff]
  rcases pop_cases (a := s.attempt faults .pop) hooks rfl hs with
    ⟨-, hfail, hsame, -⟩ |
    ⟨-, htopo', hdrop, ⟨init, below, hlast, -, hset, -⟩ | ⟨-, hfail⟩⟩
  · rw [hsame]
    exact ⟨⟨rfl, saved, hs⟩, fun hok => absurd hok hfail⟩
  · exact ⟨⟨htopo', _, hdrop⟩, fun _ => ⟨hdrop, init, below, hlast, hset⟩⟩
  · exact ⟨⟨htopo', _, hdrop⟩, fun hok => absurd hok hfail⟩

/-- Guards are a stack. -/
theorem bindGuard_stacked :
    Stacked (bindGuard hooks faults quoObjNode) (Ready topo) stack where
  acquire_inv args _ hs := (push_ready args hs).1
  release_inv _ hs := by
    obtain ⟨htopo, saved, hholds⟩ := hs
    exact (pop_ready htopo hholds).1
  acquired args _ hs := (push_ready args hs).2.1
  refused args _ hs := (push_ready args hs).2.2
  released s hs hok := by
    obtain ⟨htopo, saved, hholds⟩ := hs
    obtain ⟨hdrop, -⟩ := (pop_ready htopo hholds).2 hok
    rw [stack, stack, hdrop.contents, hholds.contents, List.map_dropLast]

theorem holds_of_stack {saved : List Cpuset} (hs : Ready topo s)
    (hsame : stack s = saved.map some) : s.process.hwloc.bstack.Holds saved := by
  obtain ⟨-, saved', hholds⟩ := hs
  rw [stack, hholds.contents] at hsame
  rwa [← List.map_injective_iff.mpr (Option.some_injective _) hsame]

/-- **Guards.** A scope with a guard leaves the binding of the process and the stack as it
has found them, if the top of the stack was what the process was bound to: whatever its body
does with guards of its own, whether one of these fails in its constructor after it has
changed the binding, and whether the scope is left by an exception. It may only be that a pop
fails, which ends the program, or that its own constructor fails so. -/
theorem bindGuard_restores {args : GuardArgs} {body : Code GuardArgs State}
    {init : List Cpuset} {top : Cpuset} (hs : s.process.hwloc.bstack.Holds (init ++ [top]))
    (htop : hooks.setCpubind s.process.hwloc.topo top = some s.process.live)
    (hpush : (s.attempt faults (args.call quoObjNode)).PushSafe hooks)
    (hend : (run (bindGuard hooks faults quoObjNode) (.scope args body) s).1 ≠ .terminated) :
    (run (bindGuard hooks faults quoObjNode) (.scope args body) s).2.process.live =
        s.process.live ∧
      (run (bindGuard hooks faults quoObjNode) (.scope args body) s).2.process.hwloc.bstack.Holds
        (init ++ [top]) := by
  have hready : Ready s.process.hwloc.topo s := ⟨rfl, _, hs⟩
  have hstacked := @bindGuard_stacked hooks faults quoObjNode s.process.hwloc.topo
  have hfinal := hstacked.run_inv (.scope args body) hready
  have hkept := hstacked.run_stack (.scope args body) hready hend
  refine ⟨?_, holds_of_stack hfinal (by rw [hkept, stack, hs.contents])⟩
  rcases hstacked.scope_cases hready hend with ⟨hfail, heq⟩ | ⟨t, hok, ht, hsame, hrel, heq⟩
  · rw [heq]
    have hresult : (s.attempt faults (args.call quoObjNode)).result hooks ≠ .ok () := by
      simpa [bindGuard, State.call] using hfail
    exact ((push_harmless_iff rfl hs).mpr hpush hresult).1
  · rw [heq]
    obtain ⟨x, hx⟩ := (@push_ready hooks faults quoObjNode _ s args hready).2.1 hok
    obtain ⟨htopo, saved, hholds⟩ := ht
    obtain ⟨-, init', below, hlast, hset⟩ := (pop_ready htopo hholds).2 hrel
    have hmap : saved.map some = ((init ++ [top]).map some) ++ [x] := by
      rw [← hholds.contents, ← hs.contents]
      exact hsame.trans hx
    have hdrop : saved.dropLast = init ++ [top] := by
      refine List.map_injective_iff.mpr (Option.some_injective _) ?_
      rw [List.map_dropLast, hmap, List.dropLast_concat]
    obtain ⟨rfl, hbelow⟩ := List.append_inj' (hlast.symm.trans hdrop) rfl
    obtain rfl : below = top := List.singleton_inj.mp hbelow
    exact Option.some.inj (hset.symm.trans htop)

/-- A first push to the second core, inside it a second one that is left by an exception. -/
def guardedCode : Code GuardArgs State :=
  .tryCatch (.scope ⟨.provided, .core, 0⟩ .throw) .done

theorem guardedCode_restores :
    (run (bindGuard .bundled (fun _ => noFaults) .numanode)
        (.scope ⟨.provided, .core, 1⟩ guardedCode) ⟨newProcess, 0⟩).2.process.live =
        newProcess.live ∧
      (run (bindGuard .bundled (fun _ => noFaults) .numanode)
        (.scope ⟨.provided, .core, 1⟩ guardedCode)
        ⟨newProcess, 0⟩).2.process.hwloc.bstack.Holds ([] ++ [{0, 1}]) := by
  obtain ⟨-, -, hholds, -⟩ := create_ok newProcess_create
  have hcut : Hooks.bundled.procCpubind twoCores {0, 1} = {0, 1} := by decide +kernel
  rw [hcut] at hholds
  exact bindGuard_restores hholds (by decide +kernel) (fun _ _ => .inr (by decide +kernel))
    (by decide +kernel)

/-! ## Guards that end the program -/

/-- Every set on the stack can be established again. -/
def Accepted (topo : Topology) (s : State) : Prop :=
  s.process.hwloc.topo = topo ∧ ∃ saved, s.process.hwloc.bstack.Holds saved ∧
    ∀ set ∈ saved, topo.fixCpubind set ≠ none

/-- What is read of a mask that was set can be set. -/
theorem fixCpubind_cutMask_ne_none {set mask : Cpuset} (h : topo.fixCpubind set = some mask) :
    topo.fixCpubind (topo.cutMask mask) ≠ none := by
  have hne : mask ≠ ∅ := by
    rintro rfl
    have hempty := Finset.subset_empty.mp (subset_of_fixCpubind h)
    simp [Topology.fixCpubind, hempty] at h
  have hsub : mask ⊆ topo.root.completeCpuset := by
    unfold Topology.fixCpubind at h
    split at h
    · simp at h
    · split at h
      · simp at h
      · next hsub =>
        split at h
        · rw [← Option.some.inj h]
        · rw [← Option.some.inj h]
          exact not_not.mp hsub
  obtain ⟨mask', hmask'⟩ := fixCpubind_of_subset hne hsub
  rw [cutMask_of_subset hsub, hmask']
  simp

theorem acquire_snd (args : GuardArgs) : ((bindGuard hooks faults quoObjNode).acquire args s).2 =
    ⟨⟨(Bind.bindPush hooks (faults s.calls) args.policy.mapToQuo (args.type.mapToQuo quoObjNode)
        args.index.toUInt32.toNat s.process.hwloc s.process.live).2.1,
      (Bind.bindPush hooks (faults s.calls) args.policy.mapToQuo (args.type.mapToQuo quoObjNode)
        args.index.toUInt32.toNat s.process.hwloc s.process.live).2.2⟩, s.calls + 1⟩ := rfl

theorem accepted_acquire (args : GuardArgs) (hs : Accepted topo s) :
    Accepted topo ((bindGuard .bundled faults quoObjNode).acquire args s).2 := by
  obtain ⟨htopo, saved, hholds, hall⟩ := hs
  rw [acquire_snd]
  rcases Bind.bindPush_cases .bundled (faults s.calls) args.policy.mapToQuo
    (args.type.mapToQuo quoObjNode) args.index.toUInt32.toNat s.process.live hholds with
    ⟨e, heq, -⟩ | ⟨mask, -, hrebind, ⟨-, b', hb', -, heq⟩ | ⟨-, e, heq⟩⟩
  · rw [heq]
    exact ⟨htopo, saved, hholds, hall⟩
  · rw [heq]
    obtain ⟨-, -, obj, -, hset⟩ := rebind_ok_iff.mp hrebind
    rw [htopo] at hset hb'
    refine ⟨htopo, _, hb', fun set hmem => ?_⟩
    rcases List.mem_append.mp hmem with hmem | hmem
    · exact hall set hmem
    · rw [List.mem_singleton.mp hmem]
      exact fixCpubind_cutMask_ne_none hset
  · rw [heq]
    exact ⟨htopo, saved, hholds, hall⟩

theorem accepted_release (hs : Accepted topo s) :
    Accepted topo ((bindGuard .bundled faults quoObjNode).release s).2 ∧
      (faults s.calls .topAlloc = false → faults s.calls .popSet = false →
        2 ≤ (stack s).length → ((bindGuard .bundled faults quoObjNode).release s).1 = true) := by
  obtain ⟨rfl, saved, hholds, hall⟩ := hs
  have hlen : (stack s).length = saved.length := by rw [stack, hholds.contents, List.length_map]
  simp only [bindGuard, State.call, decide_eq_true_iff]
  rcases pop_cases (a := s.attempt faults .pop) .bundled rfl hholds with
    ⟨hnil, -, hsame, -⟩ | ⟨-, htopo, hdrop, hcases⟩
  · refine ⟨?_, fun _ _ hlong => ?_⟩
    · rw [Accepted, hsame]
      exact ⟨rfl, saved, hholds, hall⟩
    · rw [hlen, hnil] at hlong
      simp at hlong
  · refine ⟨⟨htopo, _, hdrop, fun set hmem => hall set (List.mem_of_mem_dropLast hmem)⟩,
      fun halloc hset hlong => ?_⟩
    rcases hcases with ⟨-, -, -, -, -, hok⟩ | ⟨hnot, -⟩
    · exact hok
    · have hne : saved.dropLast ≠ [] := by
        rw [← List.length_pos_iff, List.length_dropLast]
        omega
      obtain ⟨init, below, hlast⟩ := (List.eq_nil_or_concat' saved.dropLast).resolve_left hne
      have hbelow : below ∈ saved := by
        refine List.mem_of_mem_dropLast ?_
        rw [hlast]
        exact List.mem_append_right _ (List.mem_singleton_self below)
      exact absurd ⟨halloc, hset, hall below hbelow⟩ (hnot init below hlast)

/-- **No termination.** With the calls of the bundled `hwloc`, code with guards is not ended
by a pop, whatever pushes fail, as long as the sets it finds on the stack can be established
and the system neither runs out of memory in a pop nor refuses to bind; and it leaves the
stack as it has found it. -/
theorem bindGuard_not_terminated {saved : List Cpuset} (p : Code GuardArgs State)
    (hs : s.process.hwloc.bstack.Holds saved) (hne : saved ≠ [])
    (hall : ∀ set ∈ saved, s.process.hwloc.topo.fixCpubind set ≠ none)
    (hfaults : ∀ n, faults n .topAlloc = false ∧ faults n .popSet = false) :
    (run (bindGuard .bundled faults quoObjNode) p s).1 ≠ .terminated ∧
      (run (bindGuard .bundled faults quoObjNode) p s).2.process.hwloc.bstack.Holds saved := by
  have hstacked : Stacked (bindGuard .bundled faults quoObjNode)
      (Accepted s.process.hwloc.topo) stack := {
    acquire_inv := fun args _ h => accepted_acquire args h
    release_inv := fun _ h => (accepted_release h).1
    acquired := fun args t h =>
      bindGuard_stacked.acquired args t ⟨h.1, h.2.imp fun _ h => h.1⟩
    refused := fun args t h =>
      bindGuard_stacked.refused args t ⟨h.1, h.2.imp fun _ h => h.1⟩
    released := fun t h =>
      bindGuard_stacked.released t ⟨h.1, h.2.imp fun _ h => h.1⟩ }
  have hstart : Accepted s.process.hwloc.topo s := ⟨rfl, saved, hs, hall⟩
  have hstack : stack s ≠ [] := by
    rw [stack, hs.contents]
    simpa using hne
  have hend := hstacked.run_ne_terminated
    (fun t ht hlong => (accepted_release ht).2 (hfaults t.calls).1 (hfaults t.calls).2 hlong)
    p hstart hstack
  have hready := @bindGuard_stacked .bundled faults quoObjNode s.process.hwloc.topo
  refine ⟨hend, holds_of_stack (hready.run_inv p ⟨rfl, saved, hs⟩) ?_⟩
  rw [hstacked.run_stack p hstart hend, stack, hs.contents]

theorem guardedCode_not_terminated :
    (run (bindGuard .bundled (fun _ => noFaults) .numanode) guardedCode
        ⟨newProcess, 0⟩).1 ≠ .terminated ∧
      (run (bindGuard .bundled (fun _ => noFaults) .numanode) guardedCode
        ⟨newProcess, 0⟩).2.process.hwloc.bstack.Holds [{0, 1}] := by
  obtain ⟨-, -, hholds, -⟩ := create_ok newProcess_create
  have hcut : Hooks.bundled.procCpubind twoCores {0, 1} = {0, 1} := by decide +kernel
  rw [hcut] at hholds
  exact bindGuard_not_terminated guardedCode hholds (by simp) (by decide +kernel)
    (fun _ => ⟨rfl, rfl⟩)

end LibQuo.Cxx
