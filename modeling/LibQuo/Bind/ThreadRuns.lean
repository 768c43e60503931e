import LibQuo.Bind.Failures
import LibQuo.Bind.Threads

/-!
Pushes and pops of a process whose threads start new ones and end at any moment of a call.
As long as no call has found binding unsupported, they are those of a process with one mask.
-/

namespace LibQuo.Bind
open CMem Nesting Population

namespace Threaded

variable (world : World) (kernel : Kernel) (f : Faults)

/-- `get_cur_bind`, where `alloc` is the call that may not get memory. -/
def getCurBind (alloc : Site) (h : QuoHwloc) (s : Threads) : Except (Halt Rc) Cpuset × Threads :=
  if f alloc then (.error (.code .errOor), s)
  else
    let r := getPidCpubind world h.topo s
    (if r.1 then .ok r.2.1 else .error (.code .errTopo), r.2.2)

def getObjCoveringCurBind (h : QuoHwloc) (type : ObjType) (s : Threads) :
    Except (Halt Rc) Obj × Threads :=
  match ext2intobj type with
  | .error e => (.error e, s)
  | .ok realType =>
    match getCurBind world f .coverAlloc h s with
    | (.error e, s) => (.error e, s)
    | (.ok curbind, s) =>
      match h.topo.nextObjCovering curbind realType with
      | none => (.error (.code .errNotFound), s)
      | some obj => (.ok obj, s)

def target (h : QuoHwloc) (policy : Policy) (type : ObjType) (idx : Nat) (s : Threads) :
    Except (Halt Rc) Obj × Threads :=
  if policy = .provided then (getObjByType h type idx, s)
  else getObjCoveringCurBind world f h type s

def rebind (h : QuoHwloc) (policy : Policy) (type : ObjType) (idx : Nat) (s : Threads) :
    Except (Halt Rc) Unit × Threads :=
  match target world f h policy type idx s with
  | (.error e, s) => (.error e, s)
  | (.ok obj, s) =>
    if f .rebindAlloc then (.error (.code .errOor), s)
    else
      let r := hwlocSetCpubind world kernel h.topo obj.cpuset s
      (if r.1 then .ok () else .error (.code .errNotSupported), r.2)

def pushCurBind (h : QuoHwloc) (s : Threads) : Except (Halt Rc) Unit × QuoHwloc × Threads :=
  match getCurBind world f .saveAlloc h s with
  | (.error e, s) => (.error e, h, s)
  | (.ok curBind, s) =>
    let r := bindStackPush f h.bstack curBind
    (r.1, { h with bstack := r.2 }, s)

/-- What `QUO_create` leaves of a context for a loaded topology. -/
def create (topo : Topology) (s : Threads) : Except (Halt Rc) Unit × QuoHwloc × Threads :=
  if f .widestAlloc then (.error (.code .errOor), ⟨topo, ∅, .fresh⟩, s)
  else pushCurBind world f ⟨topo, topo.root.cpuset, .fresh⟩ s

def bindPush (policy : Policy) (type : ObjType) (idx : Nat) (h : QuoHwloc) (s : Threads) :
    Except (Halt Rc) Unit × QuoHwloc × Threads :=
  if validBindPolicy policy then
    match rebind world kernel f h policy type idx s with
    | (.error e, s) => (.error e, h, s)
    | (.ok (), s) => pushCurBind world f h s
  else (.error (.code .errInvldArg), h, s)

def bindPop (h : QuoHwloc) (s : Threads) : Except (Halt Rc) Unit × QuoHwloc × Threads :=
  match bindStackPop h.bstack with
  | (.error e, b) => (.error e, { h with bstack := b }, s)
  | (.ok (), b) =>
    match bindStackTop f b with
    | (.error e, b) => (.error e, { h with bstack := b }, s)
    | (.ok topbind, b) =>
      let r := hwlocSetCpubind world kernel h.topo topbind s
      (if r.1 then .ok () else .error (.code .errNotSupported), { h with bstack := b }, r.2)

def exec (call : Call) (h : QuoHwloc) (s : Threads) :
    Except (Halt Rc) Unit × QuoHwloc × Threads :=
  match call with
  | .push policy type objIndex => bindPush world kernel f policy type objIndex.toUInt32.toNat h s
  | .pop => bindPop world kernel f h s

def run : List (Call × Faults) → QuoHwloc → Threads →
    List (Except (Halt Rc) Unit) × QuoHwloc × Threads
  | [], h, s => ([], h, s)
  | (call, f) :: calls, h, s =>
    let r := exec world kernel f call h s
    let rest := run calls r.2.1 r.2.2
    (r.1 :: rest.1, rest.2)

end Threaded

variable {world : World} {kernel : Kernel} {f f' : Faults} {h : QuoHwloc} {s : Threads}
  {set mask live : Cpuset} {topo : Topology}

/-- All threads have one mask. -/
def Uniform (s : Threads) (mask : Cpuset) : Prop := s.pop.All fun v => v = mask

/-! ## The calls of `hwloc` -/

/-- Of threads with one mask, that one is read. -/
theorem getPidCpubind_uniform (h : (getPidCpubind world topo s).1 = true)
    (hlive : Uniform (getPidCpubind world topo s).2.2 live) :
    (getPidCpubind world topo s).2.1 = topo.cutMask live := by
  ext x
  rw [getPidCpubind_true h]
  constructor
  · rintro ⟨t, ht, hx⟩
    rwa [hlive t ht] at hx
  · intro hx
    obtain ⟨t, ht⟩ := (getPidCpubind world topo s).2.2.pop.exists_task
    exact ⟨t, ht, by rwa [hlive t ht]⟩

/-- A call that succeeds leaves one mask. -/
theorem hwlocSetCpubind_true (h : (hwlocSetCpubind world kernel topo set s).1 = true) :
    ∃ mask, kernel.hooks.setCpubind topo set = some mask ∧
      Uniform (hwlocSetCpubind world kernel topo set s).2 mask := by
  unfold hwlocSetCpubind at h ⊢
  cases hfix : topo.fixCpubind set with
  | none => simp [hfix] at h
  | some fixed =>
    simp only [hfix] at h ⊢
    obtain ⟨mask, hmask, hall⟩ := setPidCpubind_true h
    exact ⟨mask, by simp [Kernel.hooks, hfix, hmask], hall⟩

/-! ## The calls of a context -/

/-- The same allocations fail. -/
def Agrees (f f' : Faults) : Prop :=
  ∀ site, site ∉ [Site.coverGet, .rebindSet, .saveGet, .popSet] → f' site = f site

/-- What a process with one mask sees of the calls that did not find one list twice. -/
def observed (f : Faults) (cover bind save pop : Bool) : Faults
  | .coverGet => cover
  | .rebindSet => bind
  | .saveGet => save
  | .popSet => pop
  | site => f site

theorem observed_agrees (f : Faults) (cover bind save pop : Bool) :
    Agrees f (observed f cover bind save pop) := by
  intro site hsite
  cases site <;> simp_all [observed]

theorem getCurBind_simulates (world : World) (kernel : Kernel) (f : Faults) (h : QuoHwloc)
    (alloc : Site) (hlive : Uniform s live) :
    Uniform (Threaded.getCurBind world f alloc h s).2 live ∧
      ∃ fails, ∀ f' get, f' alloc = f alloc → f' get = fails →
        getCurBind kernel.hooks f' alloc get h live =
          (Threaded.getCurBind world f alloc h s).1 := by
  have hkeeps : Uniform (getPidCpubind world h.topo s).2.2 live := getPidCpubind_all hlive
  unfold Threaded.getCurBind getCurBind
  refine ⟨?_, !(getPidCpubind world h.topo s).1, fun f' get halloc hget => ?_⟩
  · split
    · exact hlive
    · exact hkeeps
  · rw [halloc, hget]
    cases f alloc with
    | true => rfl
    | false =>
      cases hread : (getPidCpubind world h.topo s).1 with
      | true =>
        simp only [Bool.false_eq_true, if_false, hread, if_true, Bool.not_true]
        rw [getPidCpubind_uniform hread hkeeps]
        rfl
      | false => simp only [Bool.false_eq_true, if_false, hread, if_true, Bool.not_false]

variable {policy : Policy} {type : ObjType} {idx : Nat}

theorem target_simulates (world : World) (kernel : Kernel) (f : Faults) (h : QuoHwloc)
    (policy : Policy) (type : ObjType) (idx : Nat) (hlive : Uniform s live) :
    Uniform (Threaded.target world f h policy type idx s).2 live ∧
      ∃ fails, ∀ f', Agrees f f' → f' .coverGet = fails →
        (if policy = .provided then getObjByType h type idx
          else getObjCoveringCurBind kernel.hooks f' h type live) =
        (Threaded.target world f h policy type idx s).1 := by
  unfold Threaded.target
  split
  case isTrue => exact ⟨hlive, false, fun _ _ _ => rfl⟩
  case isFalse =>
    unfold Threaded.getObjCoveringCurBind getObjCoveringCurBind
    cases ext2intobj type with
    | error e => exact ⟨hlive, false, fun _ _ _ => rfl⟩
    | ok realType =>
      obtain ⟨hkeeps, fails, hsim⟩ := getCurBind_simulates world kernel f h .coverAlloc hlive
      refine ⟨?_, fails, fun f' hagrees hget => ?_⟩
      · dsimp only
        cases hcur : Threaded.getCurBind world f .coverAlloc h s with
        | mk r s' =>
          rw [hcur] at hkeeps
          cases r with
          | error e => exact hkeeps
          | ok curbind =>
            dsimp only
            split <;> exact hkeeps
      · rw [ok_bind, hsim f' .coverGet (hagrees _ (by decide)) hget]
        cases hcur : Threaded.getCurBind world f .coverAlloc h s with
        | mk r s' =>
          cases r with
          | error e => rfl
          | ok curbind =>
            dsimp only
            rw [ok_bind]
            cases h.topo.nextObjCovering curbind realType <;> rfl

/-- A rebinding that succeeds leaves the mask that one thread would have; one that fails
leaves the mask it has found, if binding is supported at all. -/
theorem rebind_cases (world : World) (kernel : Kernel) (f : Faults) (h : QuoHwloc) (policy : Policy)
    (type : ObjType) (idx : Nat) (hlive : Uniform s live) :
    (∃ mask s', Threaded.rebind world kernel f h policy type idx s = (.ok (), s') ∧
        Uniform s' mask ∧ ∃ cover bind, ∀ f', Agrees f f' → f' .coverGet = cover →
          f' .rebindSet = bind → Bind.rebind kernel.hooks f' h policy type idx live = .ok mask) ∨
      ∃ e s', Threaded.rebind world kernel f h policy type idx s = (.error e, s') ∧
        (e ≠ .code .errNotSupported → Uniform s' live) ∧
        ∃ cover bind, ∀ f', Agrees f f' → f' .coverGet = cover →
          f' .rebindSet = bind → Bind.rebind kernel.hooks f' h policy type idx live = .error e := by
  obtain ⟨hkeeps, cover, hsim⟩ := target_simulates world kernel f h policy type idx hlive
  unfold Threaded.rebind
  cases htarget : Threaded.target world f h policy type idx s with
  | mk r s' =>
    rw [htarget] at hkeeps hsim
    cases r with
    | error e =>
      refine .inr ⟨e, s', rfl, fun _ => hkeeps, cover, false, fun f' hagrees hcover _ => ?_⟩
      rw [rebind_bind, hsim f' hagrees hcover]
      rfl
    | ok obj =>
      cases halloc : f .rebindAlloc with
      | true =>
        refine .inr ⟨.code .errOor, s', by simp, fun _ => hkeeps, cover, false,
          fun f' hagrees hcover _ => ?_⟩
        rw [rebind_bind, hsim f' hagrees hcover, ok_bind, hagrees .rebindAlloc (by decide), halloc]
        rfl
      | false =>
        cases hset : (hwlocSetCpubind world kernel h.topo obj.cpuset s').1 with
        | true =>
          obtain ⟨mask, hmask, hall⟩ := hwlocSetCpubind_true hset
          refine .inl ⟨mask, _, by simp [hset], hall, cover, false,
            fun f' hagrees hcover hbind => ?_⟩
          rw [rebind_bind, hsim f' hagrees hcover, ok_bind, hagrees .rebindAlloc (by decide),
            halloc, hbind, hmask]
          rfl
        | false =>
          refine .inr ⟨.code .errNotSupported,
            (hwlocSetCpubind world kernel h.topo obj.cpuset s').2, by simp [hset],
            fun hne => absurd rfl hne, cover, true, fun f' hagrees hcover hbind => ?_⟩
          rw [rebind_bind, hsim f' hagrees hcover, ok_bind, hagrees .rebindAlloc (by decide),
            halloc, hbind]
          rfl

theorem pushCurBind_simulates (world : World) (kernel : Kernel) (f : Faults) (h : QuoHwloc)
    (hlive : Uniform s live) :
    Uniform (Threaded.pushCurBind world f h s).2.2 live ∧
      ∃ fails, ∀ f', Agrees f f' → f' .saveGet = fails →
        Bind.pushCurBind kernel.hooks f' h live =
          ((Threaded.pushCurBind world f h s).1, (Threaded.pushCurBind world f h s).2.1) := by
  obtain ⟨hkeeps, fails, hsim⟩ := getCurBind_simulates world kernel f h .saveAlloc hlive
  unfold Threaded.pushCurBind Bind.pushCurBind
  cases hcur : Threaded.getCurBind world f .saveAlloc h s with
  | mk r s' =>
    rw [hcur] at hkeeps hsim
    refine ⟨?_, fails, fun f' hagrees hget => ?_⟩
    · cases r with
      | error e => exact hkeeps
      | ok curBind => exact hkeeps
    · rw [hsim f' .saveGet (hagrees _ (by decide)) hget]
      cases r with
      | error e => rfl
      | ok curBind =>
        have hstack : bindStackPush f' h.bstack curBind = bindStackPush f h.bstack curBind := by
          rw [bindStackPush, bindStackPush, hagrees .stackAlloc (by decide)]
        dsimp only
        rw [hstack]

/-- A call on threads with one mask is a call of a process with that mask. -/
structure Simulates (r : Except (Halt Rc) Unit × QuoHwloc × Threads)
    (m : Except (Halt Rc) Unit × QuoHwloc × Cpuset) : Prop where
  result : r.1 = m.1
  hwloc : r.2.1 = m.2.1
  live : r.1 ≠ .error (.code .errNotSupported) → Uniform r.2.2 m.2.2

theorem bindPush_simulates (hlive : Uniform s live) :
    ∃ f', Simulates (Threaded.bindPush world kernel f policy type idx h s)
      (Bind.bindPush kernel.hooks f' policy type idx h live) := by
  unfold Threaded.bindPush Bind.bindPush
  cases validBindPolicy policy with
  | false => exact ⟨f, rfl, rfl, fun _ => hlive⟩
  | true =>
    simp only [if_true]
    rcases rebind_cases world kernel f h policy type idx hlive with
      ⟨mask, s', hthreads, hmask, cover, bind, hrebind⟩ |
      ⟨e, s', hthreads, hkept, cover, bind, hrebind⟩
    · obtain ⟨hkeeps, save, hsave⟩ := pushCurBind_simulates world kernel f h hmask
      have hagrees := observed_agrees f cover bind save false
      refine ⟨observed f cover bind save false, ?_⟩
      rw [hthreads, hrebind _ hagrees rfl rfl]
      dsimp only
      rw [hsave _ hagrees rfl]
      exact ⟨rfl, rfl, fun _ => hkeeps⟩
    · refine ⟨observed f cover bind false false, ?_⟩
      rw [hthreads, hrebind _ (observed_agrees f _ _ _ _) rfl rfl]
      exact ⟨rfl, rfl, fun hne => hkept fun he => hne (by rw [he])⟩

theorem bindPop_simulates (hlive : Uniform s live) :
    ∃ f', Simulates (Threaded.bindPop world kernel f h s)
      (Bind.bindPop kernel.hooks f' h live) := by
  unfold Threaded.bindPop Bind.bindPop
  cases bindStackPop h.bstack with
  | mk r b =>
    cases r with
    | error e => exact ⟨f, rfl, rfl, fun _ => hlive⟩
    | ok u =>
      have htop (fails : Bool) :
          bindStackTop (observed f false false false fails) b = bindStackTop f b := rfl
      cases hread : bindStackTop f b with
      | mk r b' =>
        cases r with
        | error e =>
          refine ⟨f, ?_⟩
          simp only [hread]
          exact ⟨rfl, rfl, fun _ => hlive⟩
        | ok topbind =>
          cases hset : (hwlocSetCpubind world kernel h.topo topbind s).1 with
          | true =>
            obtain ⟨mask, hmask, hall⟩ := hwlocSetCpubind_true hset
            refine ⟨observed f false false false false, ?_⟩
            simp only [htop, hread, hset, observed, hmask, if_true, Bool.false_eq_true, if_false]
            exact ⟨rfl, rfl, fun _ => hall⟩
          | false =>
            refine ⟨observed f false false false true, ?_⟩
            simp only [htop, hread, hset, observed, if_true, Bool.false_eq_true, if_false]
            exact ⟨rfl, rfl, fun hne => absurd rfl hne⟩

theorem exec_simulates (world : World) (kernel : Kernel) (f : Faults) (call : Call) (h : QuoHwloc)
    (hlive : Uniform s live) :
    ∃ f', Simulates (Threaded.exec world kernel f call h s) (call.exec kernel.hooks f' h live) := by
  cases call with
  | push policy type objIndex => exact bindPush_simulates hlive
  | pop => exact bindPop_simulates hlive

theorem run_simulates {calls : List (Call × Faults)} (hlive : Uniform s live)
    (hrun : ∀ r ∈ (Threaded.run world kernel calls h s).1, r ≠ .error (.code .errNotSupported)) :
    ∃ tr q, Run (Tries kernel.hooks) ⟨h, live⟩ tr q ∧ tr.map Attempt.call = calls.map Prod.fst ∧
      tr.map (Attempt.result kernel.hooks) = (Threaded.run world kernel calls h s).1 ∧
      q.hwloc = (Threaded.run world kernel calls h s).2.1 ∧
      Uniform (Threaded.run world kernel calls h s).2.2 q.live := by
  induction calls generalizing h s live with
  | nil => exact ⟨[], ⟨h, live⟩, .nil _, rfl, rfl, rfl, hlive⟩
  | cons c calls ih =>
    obtain ⟨f', hsim⟩ := exec_simulates world kernel c.2 c.1 h hlive
    simp only [Threaded.run, List.forall_mem_cons] at hrun ⊢
    obtain ⟨tr, q, hr, hcalls, hresults, hq, huniform⟩ := ih (hsim.live hrun.1) hrun.2
    refine ⟨⟨⟨h, live⟩, c.1, f'⟩ :: tr, q, .cons (.call c.1 f') ?_, by simp [hcalls], ?_, hq,
      huniform⟩
    · rw [hsim.hwloc] at hr
      exact hr
    · rw [List.map_cons, hresults, Attempt.result, hsim.result]

theorem create_simulates (world : World) (kernel : Kernel) (f : Faults) (topo : Topology)
    (hlive : Uniform s live) :
    Uniform (Threaded.create world f topo s).2.2 live ∧ ∃ f',
      Bind.create kernel.hooks f' topo live =
        ((Threaded.create world f topo s).1, (Threaded.create world f topo s).2.1) := by
  unfold Threaded.create Bind.create initCachedAttrs
  cases halloc : f .widestAlloc with
  | true =>
    refine ⟨hlive, f, ?_⟩
    rw [halloc]
    rfl
  | false =>
    obtain ⟨hkeeps, save, hsim⟩ :=
      pushCurBind_simulates world kernel f ⟨topo, topo.root.cpuset, .fresh⟩ hlive
    refine ⟨hkeeps, observed f false false save false, ?_⟩
    have hwidest : observed f false false save false .widestAlloc = false := halloc
    rw [hwidest]
    exact hsim _ (observed_agrees f _ _ _ _) rfl

/-- **Threads.** Any context, and any run of calls on it none of which finds binding
unsupported, are those of a process that has a single mask: with the same results, and at
the end all threads have the mask of that process. -/
theorem threads_run {calls : List (Call × Faults)} (hlive : Uniform s live) {s' : Threads}
    (hc : Threaded.create world f topo s = (.ok (), h, s'))
    (hrun : ∀ r ∈ (Threaded.run world kernel calls h s').1, r ≠ .error (.code .errNotSupported)) :
    ∃ f' tr q, Bind.create kernel.hooks f' topo live = (.ok (), h) ∧
      Run (Tries kernel.hooks) ⟨h, live⟩ tr q ∧ tr.map Attempt.call = calls.map Prod.fst ∧
      tr.map (Attempt.result kernel.hooks) = (Threaded.run world kernel calls h s').1 ∧
      q.hwloc = (Threaded.run world kernel calls h s').2.1 ∧
      Uniform (Threaded.run world kernel calls h s').2.2 q.live := by
  obtain ⟨hkeeps, f', hcreate⟩ := create_simulates world kernel f topo hlive
  rw [hc] at hkeeps hcreate
  obtain ⟨tr, q, hr⟩ := run_simulates (h := h) hkeeps hrun
  exact ⟨f', tr, q, hcreate, hr⟩

/-- A thread `1`, which starts a thread `2` while it is bound; that one ends when the
binding is taken back. -/
def spawningWorld : World := fun clock =>
  if clock = 6 then ⟨[.spawn 1 2], false⟩ else if clock = 17 then ⟨[.exit 2], false⟩
  else ⟨[], false⟩

def spawningThreads : Threads := ⟨.single 1 {0, 1}, 0⟩

def spawningContext : Except (Halt Rc) Unit × QuoHwloc × Threads :=
  Threaded.create spawningWorld noFaults twoCores spawningThreads

/-- It pushes the second core, and pops it. -/
def spawningCalls : List (Call × Faults) :=
  [(.push .provided .core 1, noFaults), (.pop, noFaults)]

theorem spawningThreads_run : ∃ f' tr q,
    Bind.create (Kernel.hooks some) f' twoCores {0, 1} = (.ok (), spawningContext.2.1) ∧
      Run (Tries (Kernel.hooks some)) ⟨spawningContext.2.1, {0, 1}⟩ tr q ∧
      tr.map Attempt.call = spawningCalls.map Prod.fst ∧
      tr.map (Attempt.result (Kernel.hooks some)) = (Threaded.run spawningWorld some spawningCalls
        spawningContext.2.1 spawningContext.2.2).1 ∧
      q.hwloc = (Threaded.run spawningWorld some spawningCalls spawningContext.2.1
        spawningContext.2.2).2.1 ∧
      Uniform (Threaded.run spawningWorld some spawningCalls spawningContext.2.1
        spawningContext.2.2).2.2 q.live := by
  have hlive : Uniform spawningThreads {0, 1} := by
    unfold Uniform Population.Pop.All
    decide
  have hc : Threaded.create spawningWorld noFaults twoCores spawningThreads =
      (.ok (), spawningContext.2.1, spawningContext.2.2) := Prod.ext (by decide +kernel) rfl
  exact threads_run hlive hc (by decide +kernel)

/-! ## After failures -/

variable {saved : List Cpuset}

/-- The stack is in order, and the context has its topology. -/
def InOrder (topo : Topology) (h : QuoHwloc) : Prop :=
  h.topo = topo ∧ ∃ saved, h.bstack.Holds saved

/-- What a successful call leaves: one mask, which the last set of the stack comes from, or
has been made of. -/
def InStep (kernel : Kernel) (topo : Topology) (call : Call) (h : QuoHwloc) (s : Threads) : Prop :=
  ∃ mask last, Uniform s mask ∧ h.bstack.slots[h.bstack.top - 1]? = some (some last) ∧
    match call with
    | .push _ _ _ => last = topo.cutMask mask
    | .pop => kernel.hooks.setCpubind topo last = some mask

theorem BindStack.Holds.last {b : BindStack} (hb : b.Holds (saved ++ [set])) :
    b.slots[b.top - 1]? = some (some set) := by
  have htop : b.top - 1 = saved.length := by simp [hb.top]
  rw [htop, hb.slots, slotsOf, List.getElem?_append_left (by simp)]
  simp

/-- A binding that is saved is what the threads have. -/
theorem threaded_save (world : World) (f : Faults) (s : Threads) (mask : Cpuset)
    (hh : InOrder topo h) :
    InOrder topo (Threaded.pushCurBind world f h s).2.1 ∧
      ((Threaded.pushCurBind world f h s).1 = .ok () → Uniform s mask →
        Uniform (Threaded.pushCurBind world f h s).2.2 mask ∧
        (Threaded.pushCurBind world f h s).2.1.bstack.slots[
            (Threaded.pushCurBind world f h s).2.1.bstack.top - 1]? =
          some (some (topo.cutMask mask))) := by
  obtain ⟨htopo, saved, hholds⟩ := hh
  unfold Threaded.pushCurBind Threaded.getCurBind
  cases f .saveAlloc with
  | true => exact ⟨⟨htopo, saved, hholds⟩, fun hok => by simp at hok⟩
  | false =>
    cases hread : (getPidCpubind world h.topo s).1 with
    | false =>
      simp only [Bool.false_eq_true, if_false, hread]
      exact ⟨⟨htopo, saved, hholds⟩, fun hok => by simp at hok⟩
    | true =>
      simp only [Bool.false_eq_true, if_false, hread, if_true]
      rcases bindStackPush_cases f (getPidCpubind world h.topo s).2.1 hholds with
        ⟨-, -, b', hb', -, heq⟩ | ⟨-, heq⟩
      · rw [heq]
        refine ⟨⟨htopo, _, hb'⟩, fun _ hmask => ?_⟩
        have hkeeps : Uniform (getPidCpubind world h.topo s).2.2 mask := getPidCpubind_all hmask
        rw [← htopo, ← getPidCpubind_uniform hread hkeeps]
        exact ⟨hkeeps, hb'.last⟩
      · rw [heq]
        exact ⟨⟨htopo, saved, hholds⟩, fun hok => by simp at hok⟩

theorem threaded_rebind_ok (hok : (Threaded.rebind world kernel f h policy type idx s).1 = .ok ()) :
    ∃ mask, Uniform (Threaded.rebind world kernel f h policy type idx s).2 mask := by
  unfold Threaded.rebind at hok ⊢
  cases htarget : Threaded.target world f h policy type idx s with
  | mk r s' =>
    rw [htarget] at hok
    cases r with
    | error e => simp at hok
    | ok obj =>
      cases halloc : f .rebindAlloc with
      | true => simp [halloc] at hok
      | false =>
        simp only [halloc, Bool.false_eq_true, if_false] at hok ⊢
        cases hset : (hwlocSetCpubind world kernel h.topo obj.cpuset s').1 with
        | true =>
          obtain ⟨mask, -, hall⟩ := hwlocSetCpubind_true hset
          exact ⟨mask, hall⟩
        | false => simp [hset] at hok

/-- A call keeps the stack in order; one that succeeds leaves all threads bound alike,
whatever they had before. -/
theorem exec_inStep (call : Call) (hh : InOrder topo h) :
    InOrder topo (Threaded.exec world kernel f call h s).2.1 ∧
      ((Threaded.exec world kernel f call h s).1 = .ok () →
        InStep kernel topo call (Threaded.exec world kernel f call h s).2.1
          (Threaded.exec world kernel f call h s).2.2) := by
  cases call with
  | push policy type objIndex =>
    simp only [Threaded.exec, Threaded.bindPush]
    cases validBindPolicy policy with
    | false => exact ⟨hh, fun hok => by simp at hok⟩
    | true =>
      have hbound := @threaded_rebind_ok world kernel f h s policy type objIndex.toUInt32.toNat
      cases hrebind : Threaded.rebind world kernel f h policy type objIndex.toUInt32.toNat s with
      | mk r s' =>
        rw [hrebind] at hbound
        cases r with
        | error e => exact ⟨hh, fun hok => by simp at hok⟩
        | ok u =>
          simp only [if_true]
          obtain ⟨mask, hmask⟩ := hbound rfl
          obtain ⟨horder, hsave⟩ := threaded_save world f s' mask hh
          refine ⟨horder, fun hok => ?_⟩
          obtain ⟨hkeeps, hlast⟩ := hsave hok hmask
          exact ⟨mask, _, hkeeps, hlast, rfl⟩
  | pop =>
    obtain ⟨htopo, saved, hholds⟩ := hh
    simp only [Threaded.exec, Threaded.bindPop]
    rcases bindStackPop_cases hholds with ⟨-, hpop⟩ | ⟨-, b, hb, -, hpop⟩
    · rw [hpop]
      exact ⟨⟨htopo, saved, hholds⟩, fun hok => by simp at hok⟩
    · rw [hpop]
      rcases bindStackTop_cases f hb with ⟨init, below, b', hlast, -, hb', -, htop⟩ | ⟨-, e, htop⟩
      · simp only [htop]
        refine ⟨⟨htopo, _, hb'⟩, fun hok => ?_⟩
        cases hset : (hwlocSetCpubind world kernel h.topo below s).1 with
        | true =>
          obtain ⟨mask, hmask, hall⟩ := hwlocSetCpubind_true hset
          rw [hlast] at hb'
          exact ⟨mask, below, hall, hb'.last, by rw [← htopo]; exact hmask⟩
        | false => simp [hset] at hok
      · simp only [htop]
        exact ⟨⟨htopo, _, hb⟩, fun hok => by simp at hok⟩

theorem run_inOrder {calls : List (Call × Faults)} (hh : InOrder topo h) :
    InOrder topo (Threaded.run world kernel calls h s).2.1 := by
  induction calls generalizing h s with
  | nil => exact hh
  | cons c calls ih => exact ih (exec_inStep c.1 hh).1

/-- **Recovery.** At any moment of any run of a context, whatever has failed before and
whatever masks the threads were left with, a call that succeeds leaves all threads of the
process bound alike, and in step with the stack. -/
theorem success_inStep {calls : List (Call × Faults)} {call : Call} {s' : Threads}
    (hc : Threaded.create world f topo s = (.ok (), h, s'))
    (hok : (Threaded.exec world kernel f' call (Threaded.run world kernel calls h s').2.1
      (Threaded.run world kernel calls h s').2.2).1 = .ok ()) :
    InStep kernel topo call
      (Threaded.exec world kernel f' call (Threaded.run world kernel calls h s').2.1
        (Threaded.run world kernel calls h s').2.2).2.1
      (Threaded.exec world kernel f' call (Threaded.run world kernel calls h s').2.1
        (Threaded.run world kernel calls h s').2.2).2.2 := by
  have hstart : InOrder topo h := by
    unfold Threaded.create at hc
    cases halloc : f .widestAlloc with
    | true => simp [halloc] at hc
    | false =>
      rw [halloc, if_neg Bool.false_ne_true] at hc
      have horder := (threaded_save world f s ∅
        (h := ⟨topo, topo.root.cpuset, .fresh⟩) ⟨rfl, [], BindStack.fresh_holds⟩).1
      rwa [hc] at horder
  exact (exec_inStep call (run_inOrder hstart)).2 hok

/-- Two threads. A first push does not get hold of the second one and gives up. -/
def stubbornWorld : World := fun clock => ⟨[], 6 < clock && clock < 40 && clock % 3 = 2⟩

def stubbornContext : Except (Halt Rc) Unit × QuoHwloc × Threads :=
  Threaded.create stubbornWorld noFaults twoCores ⟨(Pop.single 1 {0, 1}).play (.spawn 1 2), 0⟩

def stubbornPush : List (Except (Halt Rc) Unit) × QuoHwloc × Threads :=
  Threaded.run stubbornWorld some [(.push .provided .core 1, noFaults)] stubbornContext.2.1
    stubbornContext.2.2

example : stubbornPush.1 = [.error (.code .errNotSupported)] ∧
    stubbornPush.2.2.pop.tasks = [⟨1, {1}⟩, ⟨2, {0, 1}⟩] := by decide +kernel

theorem stubbornThreads_inStep :
    InStep some twoCores (.push .provided .core 0)
      (Threaded.exec stubbornWorld some noFaults (.push .provided .core 0) stubbornPush.2.1
        stubbornPush.2.2).2.1
      (Threaded.exec stubbornWorld some noFaults (.push .provided .core 0) stubbornPush.2.1
        stubbornPush.2.2).2.2 := by
  have hc : Threaded.create stubbornWorld noFaults twoCores
      ⟨(Pop.single 1 {0, 1}).play (.spawn 1 2), 0⟩ =
      (.ok (), stubbornContext.2.1, stubbornContext.2.2) := Prod.ext (by decide +kernel) rfl
  exact success_inStep hc (by decide +kernel)

end LibQuo.Bind
