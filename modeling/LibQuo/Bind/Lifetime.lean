import LibQuo.Bind.Memory

/-!
The life of a context, from `QUO_create` to `QUO_free`, with any calls between them and any of
their allocations and system calls failing. The context in memory answers as the one made of
sets does, and what it leaves allocated is what it has saved and never popped.
-/

namespace LibQuo.Bind
open CMem Owned

/-- What a call that succeeds stores for its caller. -/
inductive Answer
  | nothing
  | flag (b : Bool)
  | count (n : Nat)
  | text (printed : Option Cpuset)
  deriving DecidableEq

/-- A call on a context; `who` is the mask of the process that it asks about. The mask of the
process itself may be set by others too. -/
inductive Request
  | bind (call : Call)
  | isInCpuset (type : ObjType) (typeIndex : Nat) (who : Cpuset)
  | bound (who : Cpuset)
  | nobjsInType (oom : Bool) (inType : ObjType) (inTypeIndex : Nat) (type : ObjType)
  | stringify (oom : Bool) (who : Cpuset)
  | setMask (mask : Cpuset)

variable (hooks : Hooks) (f : Faults)

def isInCpusetByTypeId (h : QuoHwloc) (type : ObjType) (typeIndex : Nat) (who : Cpuset) :
    Except (Halt Rc) Bool := do
  let obj ← getObjByType h type typeIndex
  let curBind ← getCurBind hooks f .saveAlloc .saveGet h who
  return (curBind ∩ obj.cpuset).Nonempty

/-- `quo_hwloc_stringify_cbind`: the set whose text the caller gets. A text that cannot be
allocated is none, and the call succeeds all the same. -/
def stringifyCbind (oom : Bool) (h : QuoHwloc) (who : Cpuset) :
    Except (Halt Rc) (Option Cpuset) := do
  let curBind ← getCurBind hooks f .saveAlloc .saveGet h who
  return if oom then none else some curBind

def Request.exec (request : Request) (p : Process) : Except (Halt Rc) Answer × Process :=
  match request with
  | .bind call =>
    let r := call.exec hooks f p.hwloc p.live
    (r.1.map fun _ => .nothing, ⟨r.2.1, r.2.2⟩)
  | .isInCpuset type typeIndex who =>
    ((isInCpusetByTypeId hooks f p.hwloc type typeIndex who).map .flag, p)
  | .bound who => ((hwlocBound hooks f p.hwloc who).map .flag, p)
  | .nobjsInType oom inType inTypeIndex type =>
    ((countInType oom p.hwloc inType inTypeIndex type).map .count, p)
  | .stringify oom who => ((stringifyCbind hooks f oom p.hwloc who).map .text, p)
  | .setMask mask => (.ok .nothing, { p with live := mask })

def serve (p : Process) : List (Faults × Request) → List (Except (Halt Rc) Answer) × Process
  | [] => ([], p)
  | (f, request) :: requests =>
    let r := request.exec hooks f p
    let rest := serve r.2 requests
    (r.1 :: rest.1, rest.2)

/-- Whether the context was created, the answers that it gave, and what it was at the end. -/
def life (topo : Topology) (live : Cpuset) (requests : List (Faults × Request)) :
    Except (Halt Rc) Unit × List (Except (Halt Rc) Answer) × Process :=
  let r := create hooks f topo live
  match r.1 with
  | .error e => (.error e, [], ⟨r.2, live⟩)
  | .ok () => (.ok (), serve hooks ⟨r.2, live⟩ requests)

namespace Mem

def isInCpusetByTypeId (h : MemHwloc) (type : ObjType) (typeIndex : Nat) (who : Cpuset) :
    Prog Cpuset (Except (Halt Rc) Bool) :=
  onSuccess (getObjByType h.topo type typeIndex) fun obj =>
    getCurBind hooks f .saveAlloc .saveGet h.topo who >>= fun r => onSuccess r fun curBind =>
      read curBind >>= fun set => free curBind >>= fun _ =>
        pure (.ok (set ∩ obj.cpuset).Nonempty)

def hwlocBound (h : MemHwloc) (who : Cpuset) : Prog Cpuset (Except (Halt Rc) Bool) :=
  getCurBind hooks f .saveAlloc .saveGet h.topo who >>= fun r => onSuccess r fun curBind =>
    readAny h.widestCpuset >>= fun widest => read curBind >>= fun set =>
      free curBind >>= fun _ => pure (.ok (widest ≠ set))

/-- `quo_hwloc_get_nobjs_in_type_by_type`: the walk is over a copy of the cpuset. -/
def countInType (oom : Bool) (h : MemHwloc) (inType : ObjType) (inTypeIndex : Nat)
    (type : ObjType) : Prog Cpuset (Except (Halt Rc) Nat) :=
  onSuccess (getObjByType h.topo inType inTypeIndex) fun obj =>
    if oom then pure (.error (.code .errOor))
    else Owned.alloc ∅ >>= fun cpuSet => write cpuSet obj.cpuset >>= fun _ =>
      read cpuSet >>= fun set =>
        let nobjs := ext2intobj type >>= fun realType =>
          h.topo.countInside set realType ((h.topo.level realType).length + 1) none 0
        free cpuSet >>= fun _ => pure nobjs

def stringifyCbind (oom : Bool) (h : MemHwloc) (who : Cpuset) :
    Prog Cpuset (Except (Halt Rc) (Option Cpuset)) :=
  getCurBind hooks f .saveAlloc .saveGet h.topo who >>= fun r => onSuccess r fun curBind =>
    read curBind >>= fun set => free curBind >>= fun _ =>
      pure (.ok (if oom then none else some set))

def exec (call : Call) (h : MemHwloc) (live : Cpuset) :
    Prog Cpuset (Except (Halt Rc) Unit × MemHwloc × Cpuset) :=
  match call with
  | .push policy type objIndex => bindPush hooks f policy type objIndex.toUInt32.toNat h live
  | .pop => bindPop hooks f h live

def request (request : Request) (h : MemHwloc) (live : Cpuset) :
    Prog Cpuset (Except (Halt Rc) Answer × MemHwloc × Cpuset) :=
  match request with
  | .bind call => exec hooks f call h live >>= fun r => pure (r.1.map fun _ => .nothing, r.2)
  | .isInCpuset type typeIndex who =>
    isInCpusetByTypeId hooks f h type typeIndex who >>= fun r => pure (r.map .flag, h, live)
  | .bound who => hwlocBound hooks f h who >>= fun r => pure (r.map .flag, h, live)
  | .nobjsInType oom inType inTypeIndex type =>
    countInType oom h inType inTypeIndex type >>= fun r => pure (r.map .count, h, live)
  | .stringify oom who =>
    stringifyCbind hooks f oom h who >>= fun r => pure (r.map .text, h, live)
  | .setMask mask => pure (.ok .nothing, h, mask)

def serve (h : MemHwloc) (live : Cpuset) : List (Faults × Request) →
    Prog Cpuset (List (Except (Halt Rc) Answer) × MemHwloc × Cpuset)
  | [] => pure ([], h, live)
  | (f, r) :: requests => request hooks f r h live >>= fun r =>
    serve r.2.1 r.2.2 requests >>= fun rest => pure (r.1 :: rest.1, rest.2)

/-- `QUO_free` destroys the context, unless `QUO_create` has done so. -/
def life (topo : Topology) (live : Cpuset) (requests : List (Faults × Request)) :
    Prog Cpuset (Except (Halt Rc) Unit × List (Except (Halt Rc) Answer) × Cpuset) :=
  create hooks f topo live >>= fun r =>
    match r.1 with
    | .error e => pure (.error e, [], live)
    | .ok () => serve hooks r.2 live requests >>= fun s =>
      destruct s.2.1 >>= fun _ => pure (.ok (), s.1, s.2.2)

end Mem

section Queries

variable {hooks f} {h : QuoHwloc} {mh : MemHwloc} {live : Cpuset} {m rest : List (Ptr × Cpuset)}

theorem isInCpusetByTypeId_returns (hh : h.topo = mh.topo) (type : ObjType) (typeIndex : Nat)
    (who : Cpuset) : Returns m (Mem.isInCpusetByTypeId hooks f mh type typeIndex who)
      (isInCpusetByTypeId hooks f h type typeIndex who) := by
  unfold Mem.isInCpusetByTypeId isInCpusetByTypeId
  rw [getObjByType_eq hh]
  refine onSuccess_does (fun e he => ⟨by rw [he]; rfl, rfl⟩) fun obj hobj => ?_
  rw [hobj, ok_bind]
  refine (getCurBind_does hh).bind ?_
  rintro r m' (⟨e, hcur, rfl, rfl⟩ | ⟨p, set, hcur, rfl, rfl⟩)
  · rw [hcur]
    exact Returns.pure
  · rw [hcur]
    exact Does.read_bind List.mem_cons_self (Does.free_bind Returns.pure)

/-- The widest cpuset is there as long as the context is. -/
theorem hwlocBound_returns (hin : InMemory rest mh h m) (who : Cpuset) :
    Returns m (Mem.hwlocBound hooks f mh who) (hwlocBound hooks f h who) := by
  obtain ⟨q, stack, hq, -, hperm⟩ := hin.blocks
  unfold Mem.hwlocBound hwlocBound
  refine (getCurBind_does hin.topo).bind ?_
  rintro r m' (⟨e, hcur, rfl, rfl⟩ | ⟨p, set, hcur, rfl, rfl⟩)
  · rw [hcur]
    exact Returns.pure
  · have hmem : (q, h.widestCpuset) ∈ m := hperm.mem_iff.mpr List.mem_cons_self
    rw [hcur, hq]
    exact Does.readAny_bind (List.mem_cons_of_mem _ hmem)
      (Does.read_bind List.mem_cons_self (Does.free_bind Returns.pure))

theorem countInType_returns (hh : h.topo = mh.topo) (oom : Bool) (inType : ObjType)
    (inTypeIndex : Nat) (type : ObjType) :
    Returns m (Mem.countInType oom mh inType inTypeIndex type)
      (countInType oom h inType inTypeIndex type) := by
  unfold Mem.countInType countInType
  rw [getObjByType_eq hh]
  refine onSuccess_does (fun e he => ⟨by rw [he]; rfl, rfl⟩) fun obj hobj => ?_
  rw [hobj, ok_bind]
  split
  · exact Returns.pure
  · refine Does.alloc_bind fun p => Does.write_bind (Does.read_bind List.mem_cons_self
      (Does.free_bind (Does.pure ⟨?_, rfl⟩)))
    rw [hh]

theorem stringifyCbind_returns (hh : h.topo = mh.topo) (oom : Bool) (who : Cpuset) :
    Returns m (Mem.stringifyCbind hooks f oom mh who) (stringifyCbind hooks f oom h who) := by
  unfold Mem.stringifyCbind stringifyCbind
  refine (getCurBind_does hh).bind ?_
  rintro r m' (⟨e, hcur, rfl, rfl⟩ | ⟨p, set, hcur, rfl, rfl⟩)
  · rw [hcur]
    exact Returns.pure
  · rw [hcur]
    exact Does.read_bind List.mem_cons_self (Does.free_bind Returns.pure)

/-- A call leaves no block but those of the context, and answers as it does with sets alone. -/
theorem request_does (request : Request) (hin : InMemory rest mh h m) :
    Does m (Mem.request hooks f request mh live) fun r m' =>
      r.1 = (request.exec hooks f ⟨h, live⟩).1 ∧
      r.2.2 = (request.exec hooks f ⟨h, live⟩).2.live ∧
      InMemory rest r.2.1 (request.exec hooks f ⟨h, live⟩).2.hwloc m' := by
  cases request with
  | bind call =>
    cases call with
    | push policy type objIndex =>
      refine (bindPush_does hin).bind ?_
      rintro r m' ⟨hcode, hlive, hin'⟩
      exact Does.pure ⟨congrArg (Except.map fun _ => Answer.nothing) hcode, hlive, hin'⟩
    | pop =>
      refine (bindPop_does hin).bind ?_
      rintro r m' ⟨hcode, hlive, hin'⟩
      exact Does.pure ⟨congrArg (Except.map fun _ => Answer.nothing) hcode, hlive, hin'⟩
  | isInCpuset type typeIndex who =>
    refine (isInCpusetByTypeId_returns hin.topo type typeIndex who).bind ?_
    rintro _ _ ⟨rfl, rfl⟩
    exact Does.pure ⟨rfl, rfl, hin⟩
  | bound who =>
    refine (hwlocBound_returns hin who).bind ?_
    rintro _ _ ⟨rfl, rfl⟩
    exact Does.pure ⟨rfl, rfl, hin⟩
  | nobjsInType oom inType inTypeIndex type =>
    refine (countInType_returns hin.topo oom inType inTypeIndex type).bind ?_
    rintro _ _ ⟨rfl, rfl⟩
    exact Does.pure ⟨rfl, rfl, hin⟩
  | stringify oom who =>
    refine (stringifyCbind_returns hin.topo oom who).bind ?_
    rintro _ _ ⟨rfl, rfl⟩
    exact Does.pure ⟨rfl, rfl, hin⟩
  | setMask mask => exact Does.pure ⟨rfl, rfl, hin⟩

/-- So does a run of calls. -/
theorem serve_does (requests : List (Faults × Request)) (hin : InMemory rest mh h m) :
    Does m (Mem.serve hooks mh live requests) fun r m' =>
      r.1 = (serve hooks ⟨h, live⟩ requests).1 ∧
      r.2.2 = (serve hooks ⟨h, live⟩ requests).2.live ∧
      InMemory rest r.2.1 (serve hooks ⟨h, live⟩ requests).2.hwloc m' := by
  induction requests generalizing mh h live m with
  | nil => exact Does.pure ⟨rfl, rfl, hin⟩
  | cons fr requests ih =>
    obtain ⟨f, request⟩ := fr
    refine (request_does request hin).bind ?_
    rintro ⟨answer, mh', live'⟩ m' ⟨rfl, rfl, hin'⟩
    refine (ih hin').bind ?_
    rintro ⟨answers, mh'', live''⟩ m'' ⟨rfl, rfl, hin''⟩
    exact Does.pure ⟨rfl, rfl, hin''⟩

end Queries

/-- A context whose creation failed has saved nothing. -/
theorem create_error {topo : Topology} {live : Cpuset} {e : Halt Rc}
    (he : (create hooks f topo live).1 = .error e) :
    (create hooks f topo live).2.bstack.contents = [] := by
  unfold create initCachedAttrs at he ⊢
  split
  · rfl
  · next hwidest =>
    rw [if_neg hwidest] at he
    rcases pushCurBind_cases hooks f live (h := ⟨topo, topo.root.cpuset, .fresh⟩)
      BindStack.fresh_holds with ⟨-, b', -, -, heq⟩ | ⟨-, e', heq⟩
    · rw [heq] at he
      exact absurd he (by simp)
    · rw [heq]
      exact BindStack.fresh_holds.contents

/-- Whatever is called on a context and whatever fails, from its creation to its end no bitmap
is used or freed that is not allocated; the answers are those that sets alone give; and beside
the blocks that were there before, there remain those of the bindings that it has saved, but
for the last of them. -/
theorem life_leaves (topo : Topology) (live : Cpuset) (requests : List (Faults × Request))
    (m : List (Ptr × Cpuset)) :
    Does m (Mem.life hooks f topo live requests) fun r m' =>
      r = ((life hooks f topo live requests).1, (life hooks f topo live requests).2.1,
        (life hooks f topo live requests).2.2.live) ∧
      ∃ leaked, m'.Perm (leaked ++ m) ∧ leaked.map (some ·.2) =
        (life hooks f topo live requests).2.2.hwloc.bstack.contents.dropLast := by
  unfold Mem.life life
  refine create_does.bind ?_
  rintro ⟨code, mh⟩ m' ⟨hcode, hok, herror⟩
  dsimp only
  rw [← hcode]
  cases code with
  | error e =>
    refine Does.pure ⟨rfl, [], herror (by simp), ?_⟩
    rw [create_error hooks f hcode.symm]
    rfl
  | ok _ =>
    refine (serve_does requests (hok rfl)).bind ?_
    rintro ⟨answers, mh', live'⟩ m'' ⟨rfl, rfl, hin⟩
    refine (destruct_does hin).bind ?_
    rintro - m''' ⟨stack, hstack, hperm⟩
    refine Does.pure ⟨rfl, stack.dropLast, hperm, ?_⟩
    dsimp only
    rw [hstack.contents, List.map_map, List.map_dropLast]
    rfl

/-- One push of two is popped: two bindings are saved at the end, and one of them leaks. -/
example : ((Mem.life .bundled noFaults twoCores {0, 1}
    [(noFaults, .bind (.push .provided .core 1)), (noFaults, .bind (.push .provided .core 0)),
      (noFaults, .bind .pop)]) []).map (·.2.reduceOption) = .ok [{0, 1}] := by
  decide +kernel

end LibQuo.Bind
