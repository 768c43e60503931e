import LibQuo.Bind.Topology
import LibQuo.Codes
import LibQuo.Lib.CMem

/-!
The bind stack of `quo-hwloc.c`: a context saves the bindings of the process that its
pushes have established, on top of the one it has found when it was created.
-/

namespace LibQuo.Bind
open CMem

/-- The library and system calls of one QUO call that may fail. `get_cur_bind` is called
to find a covering object, and to save the current binding. `hwloc_bitmap_copy` is not among
them: `quo-hwloc.c` ignores its result, and its growth for a large set is taken to succeed. -/
inductive Site
  | widestAlloc
  | coverAlloc
  | coverGet
  | rebindAlloc
  | rebindSet
  | saveAlloc
  | saveGet
  | stackAlloc
  | topAlloc
  | popSet
  deriving DecidableEq, Repr

abbrev Faults := Site → Bool

/-- `QUO_obj_type_t`, with the values that are none of it. -/
inductive ObjType
  | machine
  | numanode
  | package
  | socket
  | core
  | pu
  | other (v : Int)
  deriving DecidableEq, Repr

/-- `QUO_bind_push_policy_t`, with the values that are none of it. -/
inductive Policy
  | provided
  | obj
  | other (v : Int)
  deriving DecidableEq, Repr

def stackSize : Nat := 128

/-- `bind_stack_t`. A slot holds a set, or nothing that may be read. For the record,
`reads` lists the slots that were read, each with `top` at the entry of the call. -/
structure BindStack where
  slots : List (Option Cpuset)
  top : Nat
  reads : List (Nat × Nat)

/-- `quo_hwloc_t`, as far as it is about bindings. -/
structure QuoHwloc where
  topo : Topology
  widestCpuset : Cpuset
  bstack : BindStack

def BindStack.fresh : BindStack := ⟨List.replicate stackSize none, 0, []⟩

variable (hooks : Hooks) (f : Faults)

def ext2intobj : ObjType → Except (Halt Rc) HwlocType
  | .machine => .ok .machine
  | .numanode => .ok .numanode
  | .package | .socket => .ok .package
  | .core => .ok .core
  | .pu => .ok .pu
  | .other _ => .error (.code .errInvldArg)

def validBindPolicy : Policy → Bool
  | .provided | .obj => true
  | .other _ => false

/-- `get_cur_bind`, where `alloc` and `get` are its calls that may fail. -/
def getCurBind (alloc get : Site) (h : QuoHwloc) (live : Cpuset) : Except (Halt Rc) Cpuset :=
  if f alloc then .error (.code .errOor)
  else if f get then .error (.code .errTopo)
  else .ok (hooks.procCpubind h.topo live)

def getObjByType (h : QuoHwloc) (type : ObjType) (idx : Nat) : Except (Halt Rc) Obj := do
  let realType ← ext2intobj type
  match h.topo.objByType realType idx with
  | none => .error (.code .errInvldArg)
  | some obj => return obj

def getObjCoveringCurBind (h : QuoHwloc) (type : ObjType) (live : Cpuset) :
    Except (Halt Rc) Obj := do
  let realType ← ext2intobj type
  let curbind ← getCurBind hooks f .coverAlloc .coverGet h live
  match h.topo.nextObjCovering curbind realType with
  | none => .error (.code .errNotFound)
  | some obj => return obj

/-- `rebind`: the mask it leaves. Whatever is not `QUO_BIND_PUSH_PROVIDED` takes the second
branch, whose condition is a nonzero constant. -/
def rebind (h : QuoHwloc) (policy : Policy) (type : ObjType) (idx : Nat) (live : Cpuset) :
    Except (Halt Rc) Cpuset := do
  let target ← if policy = .provided then getObjByType h type idx
    else getObjCoveringCurBind hooks f h type live
  if f .rebindAlloc then .error (.code .errOor)
  else if f .rebindSet then .error (.code .errNotSupported)
  else match hooks.setCpubind h.topo target.cpuset with
    | none => .error (.code .errNotSupported)
    | some mask => return mask

/-- `bind_stack_push`: the slot at `top` gets a copy of the set. -/
def bindStackPush (b : BindStack) (cpuset : Cpuset) : Except (Halt Rc) Unit × BindStack :=
  if stackSize ≤ b.top then (.error (.code .errOor), b)
  else if f .stackAlloc then
    (.error (.code .errOor), { b with slots := b.slots.set b.top none })
  else match store b.slots b.top (some cpuset) with
    | .error e => (.error e, b)
    | .ok slots => (.ok (), { b with slots := slots, top := b.top + 1 })

def readSlot (b : BindStack) (i : Nat) : Except (Halt Rc) Cpuset :=
  match load b.slots i with
  | .ok (some s) => .ok s
  | .ok none => .error (.fault .outOfBounds)
  | .error e => .error e

/-- `bind_stack_pop` when nobody wants the set: the slot below `top` is freed. -/
def bindStackPop (b : BindStack) : Except (Halt Rc) Unit × BindStack :=
  if b.top = 0 then (.error (.code .errPop), b)
  else
    ((readSlot b (b.top - 1)).map fun _ => (),
      { slots := b.slots.set (b.top - 1) none
        top := b.top - 1
        reads := b.reads ++ [(b.top - 1, b.top)] })

/-- `bind_stack_top`: a copy of the slot below `top`. -/
def bindStackTop (b : BindStack) : Except (Halt Rc) Cpuset × BindStack :=
  if b.top = 0 then (.error (.code .errPop), b)
  else if f .topAlloc then (.error (.code .errOor), b)
  else (readSlot b (b.top - 1), { b with reads := b.reads ++ [(b.top - 1, b.top)] })

def pushCurBind (h : QuoHwloc) (live : Cpuset) : Except (Halt Rc) Unit × QuoHwloc :=
  match getCurBind hooks f .saveAlloc .saveGet h live with
  | .error e => (.error e, h)
  | .ok curBind =>
    let r := bindStackPush f h.bstack curBind
    (r.1, { h with bstack := r.2 })

def initCachedAttrs (h : QuoHwloc) (live : Cpuset) : Except (Halt Rc) Unit × QuoHwloc :=
  if f .widestAlloc then (.error (.code .errOor), h)
  else pushCurBind hooks f { h with widestCpuset := h.topo.root.cpuset } live

/-- What `QUO_create` leaves of a context for a loaded topology, in a process bound
to `live`. -/
def create (topo : Topology) (live : Cpuset) : Except (Halt Rc) Unit × QuoHwloc :=
  initCachedAttrs hooks f ⟨topo, ∅, .fresh⟩ live

def bindPush (policy : Policy) (type : ObjType) (idx : Nat) (h : QuoHwloc) (live : Cpuset) :
    Except (Halt Rc) Unit × QuoHwloc × Cpuset :=
  if validBindPolicy policy then
    match rebind hooks f h policy type idx live with
    | .error e => (.error e, h, live)
    | .ok mask =>
      let r := pushCurBind hooks f h mask
      (r.1, r.2, mask)
  else (.error (.code .errInvldArg), h, live)

def bindPop (h : QuoHwloc) (live : Cpuset) : Except (Halt Rc) Unit × QuoHwloc × Cpuset :=
  match bindStackPop h.bstack with
  | (.error e, b) => (.error e, { h with bstack := b }, live)
  | (.ok (), b) =>
    match bindStackTop f b with
    | (.error e, b) => (.error e, { h with bstack := b }, live)
    | (.ok topbind, b) =>
      if f .popSet then (.error (.code .errNotSupported), { h with bstack := b }, live)
      else match hooks.setCpubind h.topo topbind with
        | none => (.error (.code .errNotSupported), { h with bstack := b }, live)
        | some mask => (.ok (), { h with bstack := b }, mask)

inductive Call
  | push (policy : Policy) (type : ObjType) (objIndex : Int32)
  | pop
  deriving DecidableEq

def Call.exec (call : Call) (h : QuoHwloc) (live : Cpuset) :
    Except (Halt Rc) Unit × QuoHwloc × Cpuset :=
  match call with
  | .push policy type objIndex => bindPush hooks f policy type objIndex.toUInt32.toNat h live
  | .pop => bindPop hooks f h live

/-! ## What the stack holds -/

/-- The sets below `top`. -/
def BindStack.contents (b : BindStack) : List (Option Cpuset) := b.slots.take b.top

/-- The slots when `saved` are the sets on the stack, the oldest first. -/
def slotsOf (saved : List Cpuset) : List (Option Cpuset) :=
  saved.map some ++ List.replicate (stackSize - saved.length) none

/-- `saved` are on the stack, and nothing is above them. -/
structure BindStack.Holds (b : BindStack) (saved : List Cpuset) : Prop where
  slots : b.slots = slotsOf saved
  top : b.top = saved.length
  full : saved.length ≤ stackSize

theorem slotsOf_append {saved : List Cpuset} (h : saved.length < stackSize) (set : Cpuset) :
    (slotsOf saved).set saved.length (some set) = slotsOf (saved ++ [set]) := by
  obtain ⟨k, hk⟩ : ∃ k, stackSize - saved.length = k + 1 := ⟨stackSize - saved.length - 1, by omega⟩
  have hk' : stackSize - (saved ++ [set]).length = k := by
    rw [List.length_append, List.length_singleton]
    omega
  rw [slotsOf, slotsOf, hk, hk', List.set_append_right _ _ (by simp), List.replicate_succ]
  simp

theorem slotsOf_set_none {saved : List Cpuset} (h : saved.length < stackSize) :
    (slotsOf saved).set saved.length none = slotsOf saved := by
  obtain ⟨k, hk⟩ : ∃ k, stackSize - saved.length = k + 1 := ⟨stackSize - saved.length - 1, by omega⟩
  rw [slotsOf, hk, List.set_append_right _ _ (by simp), List.replicate_succ]
  simp

theorem slotsOf_dropLast {saved : List Cpuset} (h : saved ≠ []) (hfull : saved.length ≤ stackSize) :
    (slotsOf saved).set (saved.length - 1) none = slotsOf saved.dropLast := by
  obtain ⟨init, set, rfl⟩ := (List.eq_nil_or_concat' saved).resolve_left h
  rw [List.length_append, List.length_singleton] at hfull
  have hlt : init.length < stackSize := by omega
  rw [← slotsOf_append hlt, List.length_append, List.length_singleton, Nat.add_sub_cancel,
    List.set_set, slotsOf_set_none hlt, List.dropLast_concat]

namespace BindStack

variable {b b' : BindStack} {saved saved' : List Cpuset} {set : Cpuset}

theorem fresh_holds : fresh.Holds [] where
  slots := rfl
  top := rfl
  full := Nat.zero_le _

theorem Holds.contents (h : b.Holds saved) : b.contents = saved.map some := by
  rw [BindStack.contents, h.slots, h.top, slotsOf, List.take_left' (by simp)]

/-- A stack holds one list of sets. -/
theorem Holds.unique (h : b.Holds saved) (h' : b.Holds saved') : saved = saved' := by
  have hmap : saved.map some = saved'.map some := by rw [← h.contents, ← h'.contents]
  exact List.map_injective_iff.mpr (Option.some_injective _) hmap

theorem Holds.same (h : b.Holds saved) (h' : b'.Holds saved) :
    b'.slots = b.slots ∧ b'.top = b.top :=
  ⟨by rw [h.slots, h'.slots], by rw [h.top, h'.top]⟩

theorem Holds.length (h : b.Holds saved) : b.slots.length = stackSize := by
  have hfull := h.full
  rw [h.slots, slotsOf]
  simp only [List.length_append, List.length_map, List.length_replicate]
  omega

theorem Holds.readSlot (h : b.Holds saved) {i : Nat} (hi : i < saved.length) :
    readSlot b i = .ok saved[i] := by
  have hslot : b.slots[i]? = some (some saved[i]) := by
    rw [h.slots, slotsOf, List.getElem?_append_left (by simpa using hi)]
    simp [hi]
  have hload : (load b.slots i : Except (Halt Rc) (Option Cpuset)) = .ok (some saved[i]) :=
    load_eq_ok.mpr hslot
  rw [Bind.readSlot, hload]

theorem Holds.length_of_dropLast {init : List Cpuset} (h : b.Holds saved)
    (hlast : saved.dropLast = init ++ [set]) : saved.length = init.length + 2 := by
  have hlen := congrArg List.length hlast
  have htop := h.top
  rw [List.length_dropLast, List.length_append, List.length_singleton] at hlen
  omega

/-- The set below the last one is two below `top`. -/
theorem Holds.slot_below {init : List Cpuset} (h : b.Holds saved)
    (hlast : saved.dropLast = init ++ [set]) : b.slots[b.top - 2]? = some (some set) := by
  have hlen := h.length_of_dropLast hlast
  have hget : saved[init.length]? = some set := by
    have hdrop : saved.dropLast[init.length]? = some set := by simp [hlast]
    rw [List.getElem?_dropLast] at hdrop
    simpa using (Option.ite_none_right_eq_some.mp hdrop).2
  rw [h.top, hlen, Nat.add_sub_cancel, h.slots, slotsOf, List.getElem?_append_left (by simp; omega),
    List.getElem?_map, hget]
  rfl

/-- The last set is on top. -/
theorem Holds.readTop (h : b.Holds (saved ++ [set])) : Bind.readSlot b (b.top - 1) = .ok set := by
  have htop : b.top - 1 = saved.length := by simp [h.top]
  rw [htop, h.readSlot (by simp)]
  simp

theorem Holds.push (h : b.Holds saved) (hlt : saved.length < stackSize) (set : Cpuset) :
    ({ b with slots := b.slots.set b.top (some set), top := b.top + 1 } : BindStack).Holds
      (saved ++ [set]) where
  slots := by
    show b.slots.set b.top (some set) = _
    rw [h.slots, h.top, slotsOf_append hlt]
  top := by simp [h.top]
  full := by
    rw [List.length_append, List.length_singleton]
    exact hlt

theorem Holds.pop (h : b.Holds saved) (hne : saved ≠ []) (reads : List (Nat × Nat)) :
    (⟨b.slots.set (b.top - 1) none, b.top - 1, reads⟩ : BindStack).Holds saved.dropLast where
  slots := by
    show b.slots.set (b.top - 1) none = _
    rw [h.slots, h.top, slotsOf_dropLast hne h.full]
  top := by simp [h.top]
  full := by
    rw [List.length_dropLast]
    exact (Nat.sub_le _ _).trans h.full

end BindStack

variable {hooks f} {b b' : BindStack} {saved : List Cpuset} {set : Cpuset}

/-- A stack with room takes a set, if there is memory for it; else it stays as it is. -/
theorem bindStackPush_cases (f : Faults) (set : Cpuset) (h : b.Holds saved) :
    (saved.length < stackSize ∧ f .stackAlloc = false ∧ ∃ b', b'.Holds (saved ++ [set]) ∧
        b'.reads = b.reads ∧ bindStackPush f b set = (.ok (), b')) ∨
      (¬(saved.length < stackSize ∧ f .stackAlloc = false) ∧
        bindStackPush f b set = (.error (.code .errOor), b)) := by
  unfold bindStackPush
  by_cases hlt : saved.length < stackSize
  · rw [if_neg (by rw [h.top]; exact Nat.not_le.mpr hlt)]
    cases halloc : f .stackAlloc with
    | false =>
      have hstore : (store b.slots b.top (some set) : Except (Halt Rc) _) =
          .ok (b.slots.set b.top (some set)) := store_of_lt (by rw [h.length, h.top]; exact hlt) _
      refine .inl ⟨hlt, rfl, _, h.push hlt set, rfl, ?_⟩
      simp [hstore]
    | true =>
      refine .inr ⟨by simp, ?_⟩
      have hsame : b.slots.set b.top none = b.slots := by
        rw [h.slots, h.top, slotsOf_set_none hlt]
      simp [hsame]
  · refine .inr ⟨by simp [hlt], ?_⟩
    rw [if_pos (by rw [h.top]; exact Nat.not_lt.mp hlt)]

/-- Whatever is popped is gone. -/
theorem bindStackPop_cases (h : b.Holds saved) :
    (saved = [] ∧ bindStackPop b = (.error (.code .errPop), b)) ∨
      (saved ≠ [] ∧ ∃ b', b'.Holds saved.dropLast ∧
        b'.reads = b.reads ++ [(saved.length - 1, saved.length)] ∧
        bindStackPop b = (.ok (), b')) := by
  unfold bindStackPop
  by_cases hne : saved = []
  · refine .inl ⟨hne, ?_⟩
    rw [if_pos (by simp [h.top, hne])]
  · refine .inr ⟨hne, _, h.pop hne (b.reads ++ [(b.top - 1, b.top)]), by simp [h.top], ?_⟩
    have hpos : 0 < saved.length := List.length_pos_iff.mpr hne
    rw [if_neg (by rw [h.top]; omega), h.top, h.readSlot (by omega)]
    rfl

theorem bindStackTop_cases (f : Faults) (h : b.Holds saved) :
    (∃ init set b', saved = init ++ [set] ∧ f .topAlloc = false ∧ b'.Holds saved ∧
        b'.reads = b.reads ++ [(saved.length - 1, saved.length)] ∧
        bindStackTop f b = (.ok set, b')) ∨
      ((saved = [] ∨ f .topAlloc = true) ∧ ∃ e, bindStackTop f b = (.error e, b)) := by
  unfold bindStackTop
  rcases List.eq_nil_or_concat' saved with rfl | ⟨init, set, rfl⟩
  · refine .inr ⟨.inl rfl, .code .errPop, ?_⟩
    have htop : b.top = 0 := h.top
    rw [if_pos htop]
  · have htop : b.top ≠ 0 := by simp [h.top]
    rw [if_neg htop]
    cases halloc : f .topAlloc with
    | true => exact .inr ⟨.inr rfl, _, rfl⟩
    | false =>
      refine .inl ⟨init, set, { b with reads := b.reads ++ [(b.top - 1, b.top)] }, rfl, rfl,
        ⟨h.slots, h.top, h.full⟩, by simp [h.top], ?_⟩
      simp [h.readTop]

/-! ## What a call does -/

variable {h h' : QuoHwloc} {live live' : Cpuset}

/-- The current binding can be saved. -/
def Saves (f : Faults) (b : BindStack) : Prop :=
  b.top < stackSize ∧ f .saveAlloc = false ∧ f .saveGet = false ∧ f .stackAlloc = false

instance (f : Faults) (b : BindStack) : Decidable (Saves f b) :=
  inferInstanceAs (Decidable (_ ∧ _))

/-- The binding is saved as it is read, or the stack stays as it is. -/
theorem pushCurBind_cases (hooks : Hooks) (f : Faults) (live : Cpuset)
    (hh : h.bstack.Holds saved) :
    (Saves f h.bstack ∧ ∃ b', b'.Holds (saved ++ [hooks.procCpubind h.topo live]) ∧
        b'.reads = h.bstack.reads ∧
        pushCurBind hooks f h live = (.ok (), { h with bstack := b' })) ∨
      (¬Saves f h.bstack ∧ ∃ e, pushCurBind hooks f h live = (.error e, h)) := by
  unfold pushCurBind getCurBind Saves
  rw [hh.top]
  cases halloc : f .saveAlloc with
  | true => exact .inr ⟨by simp, _, rfl⟩
  | false =>
    cases hget : f .saveGet with
    | true => exact .inr ⟨by simp, _, rfl⟩
    | false =>
      rcases bindStackPush_cases f (hooks.procCpubind h.topo live) hh with
        ⟨hlt, hs, b', hb', hreads, heq⟩ | ⟨hnot, heq⟩
      · exact .inl ⟨⟨hlt, rfl, rfl, hs⟩, b', hb', hreads, by simp [heq]⟩
      · refine .inr ⟨fun hc => hnot ⟨hc.1, hc.2.2.2⟩, .code .errOor, ?_⟩
        simp [heq]

/-- A context starts with what it reads of the binding it finds. -/
theorem create_ok {topo : Topology} (hx : create hooks f topo live = (.ok (), h)) :
    h.topo = topo ∧ h.widestCpuset = topo.root.cpuset ∧
      h.bstack.Holds [hooks.procCpubind topo live] ∧ h.bstack.reads = [] := by
  unfold create initCachedAttrs at hx
  split at hx
  · simp at hx
  · rcases pushCurBind_cases (h := ⟨topo, topo.root.cpuset, .fresh⟩) hooks f live
      BindStack.fresh_holds with
      ⟨-, b', hb', hreads, heq⟩ | ⟨-, e, heq⟩
    · obtain ⟨-, rfl⟩ := Prod.mk.inj (heq.symm.trans hx)
      exact ⟨rfl, rfl, hb', hreads⟩
    · simp [heq] at hx

variable {policy : Policy} {type : ObjType} {idx : Nat}

def Target (hooks : Hooks) (f : Faults) (h : QuoHwloc) (policy : Policy) (type : ObjType)
    (idx : Nat) (live : Cpuset) (obj : Obj) : Prop :=
  if policy = .provided then getObjByType h type idx = .ok obj
  else getObjCoveringCurBind hooks f h type live = .ok obj

theorem Target.unique {obj obj' : Obj} (ho : Target hooks f h policy type idx live obj)
    (ho' : Target hooks f h policy type idx live obj') : obj = obj' := by
  unfold Target at ho ho'
  split at ho
  · next hp =>
    rw [if_pos hp, ho] at ho'
    exact Except.ok.inj ho'
  · next hp =>
    rw [if_neg hp, ho] at ho'
    exact Except.ok.inj ho'

theorem rebind_ok_iff {mask : Cpuset} : rebind hooks f h policy type idx live = .ok mask ↔
    f .rebindAlloc = false ∧ f .rebindSet = false ∧
      ∃ obj, Target hooks f h policy type idx live obj ∧
        hooks.setCpubind h.topo obj.cpuset = some mask := by
  have hrebind : rebind hooks f h policy type idx live = .ok mask ↔
      ∃ obj, Target hooks f h policy type idx live obj ∧
        (if f .rebindAlloc then .error (.code .errOor)
          else if f .rebindSet then .error (.code .errNotSupported)
          else match hooks.setCpubind h.topo obj.cpuset with
            | none => .error (.code .errNotSupported)
            | some mask => .ok mask : Except (Halt Rc) Cpuset) = .ok mask := by
    unfold rebind Target
    by_cases hp : policy = .provided
    · simp only [if_pos hp]
      exact bind_eq_ok
    · simp only [if_neg hp]
      exact bind_eq_ok
  rw [hrebind]
  cases f .rebindAlloc with
  | true => simp
  | false =>
    cases f .rebindSet with
    | true => simp
    | false =>
      simp only [Bool.false_eq_true, ↓reduceIte, true_and]
      refine exists_congr fun obj => and_congr_right fun _ => ?_
      cases hooks.setCpubind h.topo obj.cpuset <;> simp

/-- What `rebind` does with the object it has found. -/
theorem rebind_bind : rebind hooks f h policy type idx live =
    ((if policy = .provided then getObjByType h type idx
        else getObjCoveringCurBind hooks f h type live) >>= fun obj =>
      if f .rebindAlloc then .error (.code .errOor)
      else if f .rebindSet then .error (.code .errNotSupported)
      else match hooks.setCpubind h.topo obj.cpuset with
        | none => .error (.code .errNotSupported)
        | some mask => .ok mask) := by
  unfold rebind
  by_cases hp : policy = .provided
  · simp only [if_pos hp]
    rfl
  · simp only [if_neg hp]
    rfl

/-- A push that is refused changes nothing. One that is not binds to `mask`, and either
saves the binding or does not. -/
theorem bindPush_cases (hooks : Hooks) (f : Faults) (policy : Policy) (type : ObjType) (idx : Nat)
    (live : Cpuset) (hh : h.bstack.Holds saved) :
    (∃ e, bindPush hooks f policy type idx h live = (.error e, h, live) ∧
        (validBindPolicy policy = false ∨ rebind hooks f h policy type idx live = .error e)) ∨
      ∃ mask, validBindPolicy policy ∧ rebind hooks f h policy type idx live = .ok mask ∧
        ((Saves f h.bstack ∧ ∃ b', b'.Holds (saved ++ [hooks.procCpubind h.topo mask]) ∧
            b'.reads = h.bstack.reads ∧
            bindPush hooks f policy type idx h live = (.ok (), { h with bstack := b' }, mask)) ∨
          (¬Saves f h.bstack ∧
            ∃ e, bindPush hooks f policy type idx h live = (.error e, h, mask))) := by
  unfold bindPush
  cases hvalid : validBindPolicy policy with
  | false => exact .inl ⟨_, rfl, .inl rfl⟩
  | true =>
    cases hrebind : rebind hooks f h policy type idx live with
    | error e => exact .inl ⟨e, rfl, .inr rfl⟩
    | ok mask =>
      refine .inr ⟨mask, rfl, rfl, ?_⟩
      rcases pushCurBind_cases hooks f mask hh with
        ⟨hsaves, b', hb', hreads, heq⟩ | ⟨hnot, e, heq⟩
      · exact .inl ⟨hsaves, b', hb', hreads, by simp [heq]⟩
      · exact .inr ⟨hnot, e, by simp [heq]⟩

/-- The set below the last one can be established again. -/
def Reverts (hooks : Hooks) (f : Faults) (topo : Topology) (below : Cpuset) : Prop :=
  f .topAlloc = false ∧ f .popSet = false ∧ hooks.setCpubind topo below ≠ none

instance (hooks : Hooks) (f : Faults) (topo : Topology) (below : Cpuset) :
    Decidable (Reverts hooks f topo below) :=
  inferInstanceAs (Decidable (_ ∧ _))

/-- A pop drops the last set, whether or not there is one below it that it can
establish. -/
theorem bindPop_cases (hooks : Hooks) (f : Faults) (live : Cpuset) (hh : h.bstack.Holds saved) :
    (saved = [] ∧ bindPop hooks f h live = (.error (.code .errPop), h, live)) ∨
      (saved ≠ [] ∧ ∃ b', b'.Holds saved.dropLast ∧
        ((∃ init below mask, saved.dropLast = init ++ [below] ∧
            Reverts hooks f h.topo below ∧ hooks.setCpubind h.topo below = some mask ∧
            b'.reads = h.bstack.reads ++ [(saved.length - 1, saved.length),
              (saved.length - 1 - 1, saved.length - 1)] ∧
            bindPop hooks f h live = (.ok (), { h with bstack := b' }, mask)) ∨
          ((∀ init below, saved.dropLast = init ++ [below] → ¬Reverts hooks f h.topo below) ∧
            ∃ e, bindPop hooks f h live = (.error e, { h with bstack := b' }, live)))) := by
  unfold bindPop
  rcases bindStackPop_cases hh with ⟨hnil, hpop⟩ | ⟨hne, b, hb, hreads, hpop⟩
  · exact .inl ⟨hnil, by simp [hpop]⟩
  · refine .inr ⟨hne, ?_⟩
    rw [hpop]
    rcases bindStackTop_cases f hb with
      ⟨init, below, b', hlast, halloc, hb', hreads', htop⟩ | ⟨hfail, e, htop⟩
    · refine ⟨b', hb', ?_⟩
      cases hset : f .popSet with
      | true =>
        refine .inr ⟨fun _ _ _ hr => ?_, .code .errNotSupported, by simp [htop]⟩
        simp [hr.2.1] at hset
      | false =>
        cases hmask : hooks.setCpubind h.topo below with
        | none =>
          refine .inr ⟨fun _ below' hl hr => ?_, .code .errNotSupported, by simp [htop, hmask]⟩
          have heq : below' = below := by simpa using (List.append_inj' (hl.symm.trans hlast) rfl).2
          exact hr.2.2 (heq ▸ hmask)
        | some mask =>
          refine .inl ⟨init, below, mask, hlast, ⟨halloc, hset, by simp [hmask]⟩, hmask, ?_,
            by simp [htop, hmask]⟩
          rw [hreads', hreads, List.length_dropLast, List.append_assoc]
          rfl
    · refine ⟨b, hb, .inr ⟨fun init below hl hr => ?_, e, by simp [htop]⟩⟩
      rcases hfail with hnil | halloc
      · simp [hnil] at hl
      · simp [hr.1] at halloc

/-! ## What a successful call does -/

/-- A push binds to some object, and saves what it reads of the binding then. -/
theorem bindPush_ok (hh : h.bstack.Holds saved)
    (hx : bindPush hooks f policy type idx h live = (.ok (), h', live')) :
    h'.topo = h.topo ∧ h'.bstack.Holds (saved ++ [hooks.procCpubind h.topo live']) ∧
      h.bstack.top < stackSize ∧ h'.bstack.reads = h.bstack.reads ∧
      rebind hooks f h policy type idx live = .ok live' := by
  rcases bindPush_cases hooks f policy type idx live hh with
    ⟨e, heq, -⟩ | ⟨mask, -, hrebind, ⟨hsaves, b', hb', hreads, heq⟩ | ⟨-, e, heq⟩⟩
  · simp [heq] at hx
  · obtain ⟨-, hrest⟩ := Prod.mk.inj (heq.symm.trans hx)
    obtain ⟨rfl, rfl⟩ := Prod.mk.inj hrest
    exact ⟨rfl, hb', hsaves.1, hreads, hrebind⟩
  · simp [heq] at hx

/-- A pop drops the last set, and binds to the one below it. -/
theorem bindPop_ok (hh : h.bstack.Holds saved)
    (hx : bindPop hooks f h live = (.ok (), h', live')) :
    h'.topo = h.topo ∧ h'.bstack.Holds saved.dropLast ∧
      h'.bstack.reads = h.bstack.reads ++ [(saved.length - 1, saved.length),
        (saved.length - 1 - 1, saved.length - 1)] ∧
      ∃ init below, saved.dropLast = init ++ [below] ∧
        hooks.setCpubind h.topo below = some live' := by
  rcases bindPop_cases hooks f live hh with
    ⟨-, heq⟩ | ⟨-, b', hb', ⟨init, below, mask, hlast, -, hset, hreads, heq⟩ | ⟨-, e, heq⟩⟩
  · simp [heq] at hx
  · obtain ⟨-, hrest⟩ := Prod.mk.inj (heq.symm.trans hx)
    obtain ⟨rfl, rfl⟩ := Prod.mk.inj hrest
    exact ⟨rfl, hb', hreads, init, below, hlast, hset⟩
  · simp [heq] at hx

end LibQuo.Bind
