import LibQuo.Bind.Bound
import LibQuo.Bind.Objects
import LibQuo.Lib.Owned

/-!
The bitmaps that a context allocates: the widest cpuset, those on the bind stack, and those
that a call needs for itself. The functions of `quo-hwloc.c` with their pointers are compared
with the functions on sets, and what they free with what they have allocated. As with the sets,
only the allocation of a bitmap may fail, and not the copy into it.
-/

namespace LibQuo.Bind
open CMem Owned

/-- `quo_hwloc_t` with its pointers. A slot of the stack may be null, or dangle. -/
structure MemHwloc where
  topo : Topology
  widestCpuset : Option Ptr
  bindStack : List (Option Ptr)
  top : Nat

namespace Mem

variable {β γ : Type} (hooks : Hooks) (f : Faults)

def onSuccess (r : Except (Halt Rc) β) (g : β → Prog Cpuset (Except (Halt Rc) γ)) :
    Prog Cpuset (Except (Halt Rc) γ) :=
  match r with
  | .error e => pure (.error e)
  | .ok b => g b

def getCurBind (alloc get : Site) (topo : Topology) (live : Cpuset) :
    Prog Cpuset (Except (Halt Rc) Ptr) :=
  if f alloc then pure (.error (.code .errOor))
  else Owned.alloc ∅ >>= fun curBind =>
    if f get then free curBind >>= fun _ => pure (.error (.code .errTopo))
    else write curBind (hooks.procCpubind topo live) >>= fun _ => pure (.ok curBind)

def getObjByType (topo : Topology) (type : ObjType) (idx : Nat) : Except (Halt Rc) Obj :=
  ext2intobj type >>= fun realType =>
    (topo.objByType realType idx).elim (.error (.code .errInvldArg)) .ok

def getObjCoveringCurBind (topo : Topology) (type : ObjType) (live : Cpuset) :
    Prog Cpuset (Except (Halt Rc) Obj) :=
  onSuccess (ext2intobj type) fun realType =>
    getCurBind hooks f .coverAlloc .coverGet topo live >>= fun r => onSuccess r fun curbind =>
      read curbind >>= fun set =>
        let obj := (topo.nextObjCovering set realType).elim (.error (.code .errNotFound)) .ok
        free curbind >>= fun _ => pure obj

def rebind (topo : Topology) (policy : Policy) (type : ObjType) (idx : Nat) (live : Cpuset) :
    Prog Cpuset (Except (Halt Rc) Cpuset) :=
  (if policy = .provided then pure (getObjByType topo type idx)
    else getObjCoveringCurBind hooks f topo type live) >>= fun r => onSuccess r fun target =>
  if f .rebindAlloc then pure (.error (.code .errOor))
  else Owned.alloc ∅ >>= fun cpuset => write cpuset target.cpuset >>= fun _ =>
    read cpuset >>= fun set =>
      let mask := if f .rebindSet then .error (.code .errNotSupported)
        else (hooks.setCpubind topo set).elim (.error (.code .errNotSupported)) .ok
      free cpuset >>= fun _ => pure mask

def bindStackPush (h : MemHwloc) (cpuset : Ptr) : Prog Cpuset (Except (Halt Rc) Unit × MemHwloc) :=
  if stackSize ≤ h.top then pure (.error (.code .errOor), h)
  else if f .stackAlloc then
    pure (.error (.code .errOor), { h with bindStack := h.bindStack.set h.top none })
  else Owned.alloc ∅ >>= fun p => read cpuset >>= fun set => write p set >>= fun _ =>
    pure (.ok (), { h with bindStack := h.bindStack.set h.top (some p), top := h.top + 1 })

/-- `bind_stack_pop` when nobody wants the set. The slot still holds the pointer then. -/
def bindStackPop (h : MemHwloc) : Prog Cpuset (Except (Halt Rc) Unit × MemHwloc) :=
  if h.top = 0 then pure (.error (.code .errPop), h)
  else freeAny h.bindStack[h.top - 1]?.join >>= fun _ =>
    pure (.ok (), { h with top := h.top - 1 })

def bindStackTop (h : MemHwloc) : Prog Cpuset (Except (Halt Rc) Ptr) :=
  if h.top = 0 then pure (.error (.code .errPop))
  else if f .topAlloc then pure (.error (.code .errOor))
  else Owned.alloc ∅ >>= fun copy => readAny h.bindStack[h.top - 1]?.join >>= fun set =>
    write copy set >>= fun _ => pure (.ok copy)

def pushCurBind (h : MemHwloc) (live : Cpuset) : Prog Cpuset (Except (Halt Rc) Unit × MemHwloc) :=
  getCurBind hooks f .saveAlloc .saveGet h.topo live >>= fun r =>
    match r with
    | .error e => pure (.error e, h)
    | .ok curBind => bindStackPush f h curBind >>= fun r => free curBind >>= fun _ => pure r

def initCachedAttrs (h : MemHwloc) (live : Cpuset) :
    Prog Cpuset (Except (Halt Rc) Unit × MemHwloc) :=
  if f .widestAlloc then pure (.error (.code .errOor), h)
  else Owned.alloc ∅ >>= fun p => write p h.topo.root.cpuset >>= fun _ =>
    pushCurBind hooks f { h with widestCpuset := some p } live

/-- `quo_hwloc_destruct`: one binding is popped. It frees what may be null. -/
def destruct (h : MemHwloc) : Prog Cpuset Unit :=
  freeAny h.widestCpuset >>= fun _ => bindStackPop h >>= fun _ => pure ()

/-- What `QUO_create` does with a loaded topology. -/
def create (topo : Topology) (live : Cpuset) : Prog Cpuset (Except (Halt Rc) Unit × MemHwloc) :=
  initCachedAttrs hooks f ⟨topo, none, List.replicate stackSize none, 0⟩ live >>= fun r =>
    match r.1 with
    | .error _ => destruct r.2 >>= fun _ => pure r
    | .ok () => pure r

def bindPush (policy : Policy) (type : ObjType) (idx : Nat) (h : MemHwloc) (live : Cpuset) :
    Prog Cpuset (Except (Halt Rc) Unit × MemHwloc × Cpuset) :=
  if validBindPolicy policy then
    rebind hooks f h.topo policy type idx live >>= fun r =>
      match r with
      | .error e => pure (.error e, h, live)
      | .ok mask => pushCurBind hooks f h mask >>= fun r => pure (r.1, r.2, mask)
  else pure (.error (.code .errInvldArg), h, live)

def bindPop (h : MemHwloc) (live : Cpuset) :
    Prog Cpuset (Except (Halt Rc) Unit × MemHwloc × Cpuset) :=
  bindStackPop h >>= fun r =>
    match r.1 with
    | .error e => pure (.error e, r.2, live)
    | .ok () => bindStackTop f r.2 >>= fun top =>
      match top with
      | .error e => pure (.error e, r.2, live)
      | .ok topbind => read topbind >>= fun set => free topbind >>= fun _ =>
        pure (if f .popSet then (.error (.code .errNotSupported), r.2, live)
          else (hooks.setCpubind r.2.topo set).elim (.error (.code .errNotSupported), r.2, live)
            fun mask => (.ok (), r.2, mask))

end Mem

/-! ## What a call leaves allocated -/

section Calls

variable {β γ : Type} {hooks : Hooks} {f : Faults} {h : QuoHwloc} {live : Cpuset}
  {m rest : List (Ptr × Cpuset)}

/-- A part of a call that frees all it allocates. -/
def Returns (m : List (Ptr × Cpuset)) (prog : Prog Cpuset β) (b : β) : Prop :=
  Does m prog fun r m' => r = b ∧ m' = m

theorem Returns.pure {b : β} : Returns m (pure b) b := Does.pure ⟨rfl, rfl⟩

theorem onSuccess_does {r : Except (Halt Rc) β} {g : β → Prog Cpuset (Except (Halt Rc) γ)}
    {post : Except (Halt Rc) γ → List (Ptr × Cpuset) → Prop}
    (herror : ∀ e, r = .error e → post (.error e) m) (hok : ∀ b, r = .ok b → Does m (g b) post) :
    Does m (Mem.onSuccess r g) post := by
  cases r with
  | error e => exact Does.pure (herror e rfl)
  | ok b => exact hok b rfl

/-- The current binding comes in a block of its own, unless it cannot be read. -/
theorem getCurBind_does {alloc get : Site} {topo : Topology} (hh : h.topo = topo) :
    Does m (Mem.getCurBind hooks f alloc get topo live) fun r m' =>
      (∃ e, getCurBind hooks f alloc get h live = .error e ∧ r = .error e ∧ m' = m) ∨
        ∃ p set, getCurBind hooks f alloc get h live = .ok set ∧ r = .ok p ∧
          m' = (p, set) :: m := by
  subst hh
  unfold Mem.getCurBind getCurBind
  split
  · exact Does.pure (.inl ⟨_, rfl, rfl, rfl⟩)
  · refine Does.alloc_bind fun p => ?_
    split
    · exact Does.free_bind (Does.pure (.inl ⟨_, rfl, rfl, rfl⟩))
    · exact Does.write_bind (Does.pure (.inr ⟨p, _, rfl, rfl, rfl⟩))

theorem getObjByType_eq {topo : Topology} (hh : h.topo = topo) (type : ObjType) (idx : Nat) :
    Mem.getObjByType topo type idx = getObjByType h type idx := by
  subst hh
  unfold Mem.getObjByType getObjByType
  cases ext2intobj type with
  | error e => rfl
  | ok realType =>
    simp only [ok_bind]
    cases h.topo.objByType realType idx with
    | none => rfl
    | some obj => rfl

theorem getObjCoveringCurBind_returns {topo : Topology} (hh : h.topo = topo) (type : ObjType) :
    Returns m (Mem.getObjCoveringCurBind hooks f topo type live)
      (getObjCoveringCurBind hooks f h type live) := by
  unfold Mem.getObjCoveringCurBind getObjCoveringCurBind
  refine onSuccess_does (fun e he => ⟨by rw [he]; rfl, rfl⟩) fun realType hreal => ?_
  rw [hreal]
  refine Does.bind (getCurBind_does hh) ?_
  rintro r m' (⟨e, hcur, rfl, rfl⟩ | ⟨p, set, hcur, rfl, rfl⟩)
  · exact Does.pure ⟨by rw [ok_bind, hcur]; rfl, rfl⟩
  · refine Does.read_bind List.mem_cons_self (Does.free_bind (Does.pure ⟨?_, rfl⟩))
    subst hh
    rw [ok_bind, hcur, ok_bind]
    cases h.topo.nextObjCovering set realType with
    | none => rfl
    | some obj => rfl

theorem rebind_returns {topo : Topology} (hh : h.topo = topo) (policy : Policy) (type : ObjType)
    (idx : Nat) : Returns m (Mem.rebind hooks f topo policy type idx live)
      (rebind hooks f h policy type idx live) := by
  have htarget : Returns m (if policy = .provided then pure (Mem.getObjByType topo type idx)
      else Mem.getObjCoveringCurBind hooks f topo type live)
      (if policy = .provided then getObjByType h type idx
        else getObjCoveringCurBind hooks f h type live) := by
    split
    · rw [getObjByType_eq hh]
      exact Returns.pure
    · exact getObjCoveringCurBind_returns hh type
  unfold Mem.rebind
  refine htarget.bind ?_
  rintro r _ ⟨rfl, rfl⟩
  rw [rebind_bind]
  refine onSuccess_does (fun e he => ⟨by rw [he]; rfl, rfl⟩) fun target htarget => ?_
  rw [htarget, ok_bind]
  subst hh
  split
  · exact Returns.pure
  · refine Does.alloc_bind fun p => Does.write_bind (Does.read_bind List.mem_cons_self
      (Does.free_bind (Does.pure ⟨?_, rfl⟩)))
    split
    · rfl
    · cases hooks.setCpubind h.topo target.cpuset with
      | none => rfl
      | some mask => rfl

/-- A stack in memory: each set below `top` is in a block of its own. -/
structure Stacked (mh : MemHwloc) (b : BindStack) (stack : List (Ptr × Cpuset)) : Prop where
  length : mh.bindStack.length = stackSize
  holds : b.Holds (stack.map Prod.snd)
  top : mh.top = stack.length
  slots : mh.bindStack.take mh.top = stack.map (some ·.1)

/-- A context in memory, with its widest cpuset and its stack; `rest` are the other blocks that
are allocated. -/
structure InMemory (rest : List (Ptr × Cpuset)) (mh : MemHwloc) (h : QuoHwloc)
    (m : List (Ptr × Cpuset)) : Prop where
  topo : h.topo = mh.topo
  blocks : ∃ p stack, mh.widestCpuset = some p ∧ Stacked mh h.bstack stack ∧
    m.Perm ((p, h.widestCpuset) :: (stack ++ rest))

variable {mh : MemHwloc} {p : Ptr} {set : Cpuset} {b : BindStack} {stack : List (Ptr × Cpuset)}

/-- The last set is in the slot below `top`. -/
theorem Stacked.last (hs : Stacked mh b (stack ++ [(p, set)])) :
    mh.bindStack[mh.top - 1]?.join = some p := by
  have htop : mh.top - 1 = stack.length := by
    rw [hs.top, List.length_append, List.length_singleton, Nat.add_sub_cancel]
  have hslot := congrArg (·[stack.length]?) hs.slots
  rw [List.map_append, List.getElem?_take_of_lt (by rw [hs.top]; simp)] at hslot
  rw [htop, hslot]
  simp

/-- A set more. -/
theorem Stacked.push (hs : Stacked mh b stack) (hroom : mh.top < stackSize) {b' : BindStack}
    (hb' : b'.Holds (stack.map Prod.snd ++ [set])) :
    Stacked { mh with bindStack := mh.bindStack.set mh.top (some p), top := mh.top + 1 } b'
      (stack ++ [(p, set)]) where
  length := by
    rw [List.length_set]
    exact hs.length
  holds := by
    rw [List.map_append]
    exact hb'
  top := by rw [List.length_append, List.length_singleton, hs.top]
  slots := by
    show (mh.bindStack.set mh.top (some p)).take (mh.top + 1) = _
    rw [List.take_add_one, List.take_set_of_le (Nat.le_refl _), hs.slots,
      List.getElem?_set_self (by rw [hs.length]; exact hroom), List.map_append]
    rfl

/-- A set less. The slot may dangle: it is above `top`. -/
theorem Stacked.pop (hs : Stacked mh b (stack ++ [(p, set)])) {b' : BindStack}
    (hb' : b'.Holds (stack.map Prod.snd)) :
    Stacked { mh with top := mh.top - 1 } b' stack where
  length := hs.length
  holds := hb'
  top := by
    show mh.top - 1 = _
    rw [hs.top, List.length_append, List.length_singleton, Nat.add_sub_cancel]
  slots := by
    have hslots := congrArg List.dropLast hs.slots
    rw [List.map_append, List.map_singleton, List.dropLast_concat, List.dropLast_eq_take,
      List.take_take, List.length_take, hs.length] at hslots
    have hfull : mh.top ≤ stackSize := by
      rw [hs.top, ← List.length_map Prod.snd]
      exact hs.holds.full
    have hmin : min (min mh.top stackSize - 1) mh.top = mh.top - 1 := by omega
    rw [hmin] at hslots
    exact hslots

/-- A slot above `top` is written. -/
theorem Stacked.setAbove (hs : Stacked mh b stack) (slot : Option Ptr) :
    Stacked { mh with bindStack := mh.bindStack.set mh.top slot } b stack where
  length := by
    rw [List.length_set]
    exact hs.length
  holds := hs.holds
  top := hs.top
  slots := by
    show (mh.bindStack.set mh.top slot).take mh.top = _
    rw [List.take_set_of_le (Nat.le_refl _), hs.slots]

/-- The record of what was read is not in memory. -/
theorem Stacked.reads (hs : Stacked mh b stack) (reads : List (Nat × Nat)) :
    Stacked mh { b with reads := reads } stack :=
  ⟨hs.length, ⟨hs.holds.slots, hs.holds.top, hs.holds.full⟩, hs.top, hs.slots⟩

/-- What is popped is freed. -/
theorem bindStackPop_does {other : List (Ptr × Cpuset)} (hs : Stacked mh b stack)
    (hperm : m.Perm (stack ++ other)) :
    Does m (Mem.bindStackPop mh) fun r m' => r.1 = (bindStackPop b).1 ∧
      r.2.topo = mh.topo ∧ r.2.widestCpuset = mh.widestCpuset ∧
      Stacked r.2 (bindStackPop b).2 stack.dropLast ∧ m'.Perm (stack.dropLast ++ other) := by
  unfold Mem.bindStackPop
  rcases bindStackPop_cases hs.holds with ⟨hnil, hpop⟩ | ⟨hne, b', hb', -, hpop⟩
  · obtain rfl := List.map_eq_nil_iff.mp hnil
    have htop : mh.top = 0 := hs.top
    rw [hpop, if_pos htop]
    exact Does.pure ⟨rfl, rfl, rfl, hs, hperm⟩
  · obtain ⟨stack, ⟨p, set⟩, rfl⟩ := (List.eq_nil_or_concat' stack).resolve_left fun hnil =>
      hne (by rw [hnil]; rfl)
    rw [List.map_append, List.map_singleton, List.dropLast_concat] at hb'
    have hfirst : m.Perm ((p, set) :: (stack ++ other)) := by
      rw [List.append_assoc] at hperm
      exact hperm.trans List.perm_middle
    rw [hpop, if_neg (by rw [hs.top]; simp), hs.last, List.dropLast_concat]
    exact .perm hfirst (Does.freeAny_bind (Does.pure ⟨rfl, rfl, rfl, hs.pop hb', .refl _⟩))

/-- A copy of the last set is made, for the caller to free. -/
theorem bindStackTop_does (hs : Stacked mh b stack) (hsub : ∀ x ∈ stack, x ∈ m) :
    Does m (Mem.bindStackTop f mh) fun r m' => Stacked mh (bindStackTop f b).2 stack ∧
      ((∃ e, (bindStackTop f b).1 = .error e ∧ r = .error e ∧ m' = m) ∨
        ∃ p set, (bindStackTop f b).1 = .ok set ∧ r = .ok p ∧ m' = (p, set) :: m) := by
  unfold Mem.bindStackTop
  rcases List.eq_nil_or_concat' stack with rfl | ⟨stack, ⟨p, set⟩, rfl⟩
  · have htop : mh.top = 0 := hs.top
    have htop' : b.top = 0 := hs.holds.top
    rw [if_pos htop, bindStackTop, if_pos htop']
    exact Does.pure ⟨hs, .inl ⟨_, rfl, rfl, rfl⟩⟩
  · have htop : b.top ≠ 0 := by
      rw [hs.holds.top]
      simp
    rw [if_neg (by rw [hs.top]; simp), bindStackTop, if_neg htop, hs.last]
    split
    · exact Does.pure ⟨hs, .inl ⟨_, rfl, rfl, rfl⟩⟩
    · have hread : readSlot b (b.top - 1) = .ok set := by
        have hholds := hs.holds
        rw [List.map_append, List.map_singleton] at hholds
        exact hholds.readTop
      rw [hread]
      refine Does.alloc_bind fun q => Does.readAny_bind (List.mem_cons_of_mem _ (hsub _ ?_))
        (Does.write_bind (Does.pure ⟨hs.reads _, .inr ⟨q, set, rfl, rfl, rfl⟩⟩))
      simp

theorem bindStackPush_does (hs : Stacked mh b stack) {other : List (Ptr × Cpuset)}
    (hperm : m.Perm (stack ++ other)) (hmem : (p, set) ∈ m) :
    Does m (Mem.bindStackPush f mh p) fun r m' => r.1 = (bindStackPush f b set).1 ∧
      r.2.topo = mh.topo ∧ r.2.widestCpuset = mh.widestCpuset ∧
      ∃ stack', Stacked r.2 (bindStackPush f b set).2 stack' ∧ m'.Perm (stack' ++ other) := by
  have htop : b.top = mh.top := by rw [hs.holds.top, List.length_map, hs.top]
  unfold Mem.bindStackPush
  by_cases hfull : stackSize ≤ mh.top
  · have hpush : bindStackPush f b set = (.error (.code .errOor), b) := by
      rw [bindStackPush, if_pos (by rw [htop]; exact hfull)]
    rw [if_pos hfull, hpush]
    exact Does.pure ⟨rfl, rfl, rfl, stack, hs, hperm⟩
  · rw [if_neg hfull]
    rcases bindStackPush_cases f set hs.holds with ⟨-, halloc, b', hb', -, hpush⟩ | ⟨hnot, hpush⟩
    · rw [hpush, halloc, if_neg Bool.false_ne_true]
      refine Does.alloc_bind fun q => Does.read_bind (List.mem_cons_of_mem _ hmem)
        (Does.write_bind (Does.pure ⟨rfl, rfl, rfl, stack ++ [(q, set)],
          hs.push (Nat.not_le.mp hfull) hb', ?_⟩))
      rw [List.append_assoc]
      exact (hperm.cons _).trans (@List.perm_middle _ _ stack _).symm
    · have halloc : f .stackAlloc = true := by
        by_contra hfalse
        refine hnot ⟨?_, by simpa using hfalse⟩
        rw [List.length_map, ← hs.top]
        exact Nat.not_le.mp hfull
      rw [hpush, if_pos halloc]
      exact Does.pure ⟨rfl, rfl, rfl, stack, hs.setAbove none, hperm⟩

/-- The binding is saved as it is with sets alone, and the block it was read to is freed. -/
theorem pushCurBind_does (hin : InMemory rest mh h m) :
    Does m (Mem.pushCurBind hooks f mh live) fun r m' => r.1 = (pushCurBind hooks f h live).1 ∧
      InMemory rest r.2 (pushCurBind hooks f h live).2 m' := by
  obtain ⟨q, stack, hq, hs, hperm⟩ := hin.blocks
  unfold Mem.pushCurBind pushCurBind
  refine (getCurBind_does hin.topo).bind ?_
  rintro r m' (⟨e, hcur, rfl, rfl⟩ | ⟨p, set, hcur, rfl, rfl⟩)
  · rw [hcur]
    exact Does.pure ⟨rfl, hin⟩
  · rw [hcur]
    have hblocks : ((p, set) :: m).Perm
        (stack ++ ((p, set) :: (q, h.widestCpuset) :: rest)) :=
      ((hperm.trans List.perm_middle.symm).cons _).trans List.perm_middle.symm
    refine (bindStackPush_does hs hblocks List.mem_cons_self).bind ?_
    rintro ⟨code, mh'⟩ m' ⟨hcode, htopo, hwidest, stack', hs', hperm'⟩
    refine .perm (hperm'.trans List.perm_middle) (Does.free_bind (Does.pure ⟨hcode,
      hin.topo.trans htopo.symm, q, stack', hwidest.trans hq, hs', ?_⟩))
    exact List.perm_middle

/-- A context is destroyed: all but the last of its bindings stay allocated. -/
theorem destruct_does (hin : InMemory rest mh h m) :
    Does m (Mem.destruct mh) fun _ m' => ∃ stack : List (Ptr × Cpuset),
      h.bstack.Holds (stack.map Prod.snd) ∧ m'.Perm (stack.dropLast ++ rest) := by
  obtain ⟨q, stack, hq, hs, hperm⟩ := hin.blocks
  unfold Mem.destruct
  rw [hq]
  refine .perm hperm (Does.freeAny_bind ?_)
  refine (bindStackPop_does hs (.refl _)).bind ?_
  rintro - m' ⟨-, -, -, -, hperm'⟩
  exact Does.pure ⟨stack, hs.holds, hperm'⟩

/-- A context is created in memory. Where that fails, nothing stays allocated. -/
theorem create_does {topo : Topology} :
    Does m (Mem.create hooks f topo live) fun r m' => r.1 = (create hooks f topo live).1 ∧
      (r.1 = .ok () → InMemory m r.2 (create hooks f topo live).2 m') ∧
      (r.1 ≠ .ok () → m'.Perm m) := by
  have hfresh (widest : Option Ptr) :
      Stacked ⟨topo, widest, List.replicate stackSize none, 0⟩ .fresh [] :=
    ⟨List.length_replicate, BindStack.fresh_holds, rfl, rfl⟩
  unfold Mem.create Mem.initCachedAttrs create initCachedAttrs
  split
  · -- there is no widest cpuset to free, and no binding
    have hdestruct : Does m (Mem.destruct ⟨topo, none, List.replicate stackSize none, 0⟩)
        fun _ m' => m'.Perm m := by
      refine Does.pure_bind ?_
      refine (bindStackPop_does (hfresh none) (.refl m)).bind ?_
      rintro - m' ⟨-, -, -, -, hperm⟩
      exact Does.pure hperm
    refine Does.pure_bind (hdestruct.bind fun _ m' hperm => ?_)
    exact Does.pure ⟨rfl, fun h => absurd h (by simp), fun _ => hperm⟩
  · have hin (p : Ptr) : InMemory m ⟨topo, some p, List.replicate stackSize none, 0⟩
        ⟨topo, topo.root.cpuset, .fresh⟩ ((p, topo.root.cpuset) :: m) :=
      ⟨rfl, p, [], rfl, hfresh _, .refl _⟩
    refine Does.bind (Does.alloc_bind fun p => Does.write_bind (pushCurBind_does (hin p))) ?_
    rintro ⟨code, mh⟩ m' ⟨hcode, hin⟩
    cases code with
    | ok _ => exact Does.pure ⟨hcode, fun _ => hin, fun h => absurd rfl h⟩
    | error e =>
      refine (destruct_does hin).bind ?_
      rintro - m'' ⟨stack, hstack, hperm⟩
      refine Does.pure ⟨hcode, fun h => absurd h (by simp), fun _ => ?_⟩
      rcases pushCurBind_cases hooks f live (h := ⟨topo, topo.root.cpuset, .fresh⟩)
        BindStack.fresh_holds with ⟨-, b', -, -, heq⟩ | ⟨-, e', heq⟩
      · exact absurd (hcode.trans (congrArg Prod.fst heq)) (by simp)
      · rw [heq] at hstack
        obtain rfl := List.map_eq_nil_iff.mp (hstack.unique BindStack.fresh_holds)
        exact hperm

theorem bindPush_does {policy : Policy} {type : ObjType} {idx : Nat}
    (hin : InMemory rest mh h m) :
    Does m (Mem.bindPush hooks f policy type idx mh live) fun r m' =>
      r.1 = (bindPush hooks f policy type idx h live).1 ∧
      r.2.2 = (bindPush hooks f policy type idx h live).2.2 ∧
      InMemory rest r.2.1 (bindPush hooks f policy type idx h live).2.1 m' := by
  unfold Mem.bindPush bindPush
  split
  · refine (rebind_returns hin.topo policy type idx).bind ?_
    rintro r m' ⟨rfl, rfl⟩
    cases rebind hooks f h policy type idx live with
    | error e => exact Does.pure ⟨rfl, rfl, hin⟩
    | ok mask =>
      refine (pushCurBind_does hin).bind ?_
      rintro r m' ⟨hcode, hin'⟩
      exact Does.pure ⟨hcode, rfl, hin'⟩
  · exact Does.pure ⟨rfl, rfl, hin⟩

theorem bindPop_does (hin : InMemory rest mh h m) :
    Does m (Mem.bindPop hooks f mh live) fun r m' =>
      r.1 = (bindPop hooks f h live).1 ∧ r.2.2 = (bindPop hooks f h live).2.2 ∧
      InMemory rest r.2.1 (bindPop hooks f h live).2.1 m' := by
  obtain ⟨q, stack, hq, hs, hperm⟩ := hin.blocks
  unfold Mem.bindPop bindPop
  refine (bindStackPop_does hs (hperm.trans List.perm_middle.symm)).bind ?_
  rintro ⟨code, mh'⟩ m' ⟨hcode, htopo, hwidest, hs', hperm'⟩
  have hin' (h' : QuoHwloc) (htopo' : h'.topo = h.topo) (hwide : h'.widestCpuset = h.widestCpuset)
      (hb : Stacked mh' h'.bstack stack.dropLast) : InMemory rest mh' h' m' := by
    refine ⟨(htopo'.trans hin.topo).trans htopo.symm, q, stack.dropLast, hwidest.trans hq, hb, ?_⟩
    rw [hwide]
    exact hperm'.trans List.perm_middle
  rcases hpop : bindStackPop h.bstack with ⟨code', b⟩
  rw [hpop] at hcode hs'
  subst hcode
  cases code with
  | error e => exact Does.pure ⟨rfl, rfl, hin' { h with bstack := b } rfl rfl hs'⟩
  | ok _ =>
    have hsub : ∀ x ∈ stack.dropLast, x ∈ m' := fun x hx =>
      hperm'.mem_iff.mpr (List.mem_append_left _ hx)
    refine (bindStackTop_does hs' hsub).bind ?_
    rintro r m'' ⟨hs'', htop⟩
    dsimp only
    rcases hread : bindStackTop f b with ⟨code, b'⟩
    rw [hread] at hs'' htop
    have hin'' := hin' { h with bstack := b' } rfl rfl hs''
    rcases htop with ⟨e, rfl, rfl, rfl⟩ | ⟨p, set, rfl, rfl, rfl⟩
    · exact Does.pure ⟨rfl, rfl, hin''⟩
    · refine Does.read_bind List.mem_cons_self (Does.free_bind ?_)
      have htopo' : mh'.topo = h.topo := htopo.trans hin.topo.symm
      dsimp only
      rw [htopo']
      split
      · exact Does.pure ⟨rfl, rfl, hin''⟩
      · cases hooks.setCpubind h.topo set with
        | none => exact Does.pure ⟨rfl, rfl, hin''⟩
        | some mask => exact Does.pure ⟨rfl, rfl, hin''⟩

end Calls

end LibQuo.Bind
