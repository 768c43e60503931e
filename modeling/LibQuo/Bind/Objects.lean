import LibQuo.Bind.Cover

/-!
The two ways in which `quo-hwloc.c` counts hardware objects: by the size of their level, and
by a walk over the level that keeps to a cpuset.
-/

namespace LibQuo.Bind
open CMem

/-- An object and, in order, those behind it on its level. -/
abbrev Cousins : Type := Obj × List Obj

namespace Topology

/-- `hwloc_get_type_depth`, by the type of the level; `none` is `HWLOC_TYPE_DEPTH_UNKNOWN`. -/
def typeDepth (t : Topology) (type : HwlocType) : Option HwlocType :=
  if t.level type = [] then none else some type

def nbobjsByDepth (t : Topology) (depth : HwlocType) : Nat := (t.level depth).length

/-- `hwloc_get_next_obj_by_depth`: what is left of the level from the next object on. -/
def nextObjByDepth (t : Topology) (depth : HwlocType) : Option Cousins → List Obj
  | none => t.level depth
  | some (_, cousins) => cousins

/-- The loop of `hwloc_get_next_obj_inside_cpuset_by_depth`. -/
def skipOutside (set : Cpuset) : List Obj → Option Cousins
  | [] => none
  | next :: cousins =>
      if next.cpuset = ∅ ∨ ¬next.cpuset ⊆ set then skipOutside set cousins
      else some (next, cousins)

/-- `hwloc_get_next_obj_inside_cpuset_by_type`. -/
def nextObjInside (t : Topology) (set : Cpuset) (type : HwlocType) (prev : Option Cousins) :
    Option Cousins :=
  match t.typeDepth type with
  | none => none
  | some depth => skipOutside set (t.nextObjByDepth depth prev)

def countInside (t : Topology) (set : Cpuset) (type : HwlocType) :
    Nat → Option Cousins → Nat → Except (Halt Rc) Nat
  | 0, _, _ => .error (.fault .noFuel)
  | fuel + 1, obj, nobjs =>
      match t.nextObjInside set type obj with
      | none => .ok nobjs
      | some next => countInside t set type fuel (some next) (nobjs + 1)

end Topology

/-- What `quo_hwloc_get_nobjs_in_type_by_type` finds; `oom` says whether its allocation fails.
The copy of the cpuset into it is taken to succeed. -/
def countInType (oom : Bool) (h : QuoHwloc) (inType : ObjType) (inTypeIndex : Nat)
    (type : ObjType) : Except (Halt Rc) Nat := do
  let obj ← getObjByType h inType inTypeIndex
  if oom then .error (.code .errOor)
  else do
    let realType ← ext2intobj type
    h.topo.countInside obj.cpuset realType ((h.topo.level realType).length + 1) none 0

/-- `quo_hwloc_get_nobjs_in_type_by_type`, with `*out_result`. -/
def nobjsInTypeByType (oom : Bool) (h : QuoHwloc) (inType : ObjType) (inTypeIndex : Nat)
    (type : ObjType) : Except (Halt Rc) Unit × Nat :=
  match countInType oom h inType inTypeIndex type with
  | .error e => (.error e, 0)
  | .ok nobjs => (.ok (), nobjs)

/-- `quo_hwloc_get_nobjs_by_type`, with `*out_nobjs`, which holds `out` before. -/
def nobjsByType (h : QuoHwloc) (targetType : ObjType) (out : Nat) : Except (Halt Rc) Unit × Nat :=
  match ext2intobj targetType with
  | .error e => (.error e, out)
  | .ok realType =>
    match h.topo.typeDepth realType with
    | none => (.ok (), 0)
    | some depth => (.ok (), h.topo.nbobjsByDepth depth)

variable {t : Topology} {set : Cpuset} {type : HwlocType}

def insideOf (set : Cpuset) (objs : List Obj) : List Obj :=
  objs.filter fun obj => obj.cpuset ≠ ∅ ∧ obj.cpuset ⊆ set

theorem skipOutside_none {objs : List Obj} (h : Topology.skipOutside set objs = none) :
    insideOf set objs = [] := by
  induction objs with
  | nil => rfl
  | cons obj cousins ih =>
    rw [Topology.skipOutside] at h
    split at h
    case isTrue hout =>
      rw [insideOf, List.filter_cons_of_neg (by simpa [imp_iff_not_or] using hout)]
      exact ih h
    case isFalse => simp at h

theorem skipOutside_some {objs cousins : List Obj} {next : Obj}
    (h : Topology.skipOutside set objs = some (next, cousins)) :
    (insideOf set objs).length = (insideOf set cousins).length + 1 ∧
      cousins.length < objs.length := by
  induction objs with
  | nil => simp [Topology.skipOutside] at h
  | cons obj rest ih =>
    rw [Topology.skipOutside] at h
    split at h
    case isTrue hout =>
      obtain ⟨hcount, hlen⟩ := ih h
      rw [insideOf, List.filter_cons_of_neg (by simpa [imp_iff_not_or] using hout)]
      exact ⟨hcount, Nat.lt_succ_of_lt hlen⟩
    case isFalse hin =>
      obtain ⟨rfl, rfl⟩ := Prod.mk.inj (Option.some.inj h)
      rw [insideOf, List.filter_cons_of_pos (by simpa [not_or] using hin)]
      exact ⟨rfl, Nat.lt_succ_self _⟩

/-- On a level without objects there is nothing to skip. -/
theorem nextObjInside_eq {prev : Option Cousins}
    (hprev : (t.nextObjByDepth type prev).length ≤ (t.level type).length) :
    t.nextObjInside set type prev = Topology.skipOutside set (t.nextObjByDepth type prev) := by
  rw [Topology.nextObjInside, Topology.typeDepth]
  by_cases hlevel : t.level type = []
  · rw [hlevel] at hprev
    rw [if_pos hlevel, List.length_eq_zero_iff.mp (Nat.le_zero.mp hprev)]
    rfl
  · rw [if_neg hlevel]

/-- The walk ends, and has counted the objects of the level that are in the set. -/
theorem countInside_eq {fuel nobjs : Nat} {prev : Option Cousins}
    (hprev : (t.nextObjByDepth type prev).length ≤ (t.level type).length)
    (hfuel : (t.nextObjByDepth type prev).length < fuel) :
    t.countInside set type fuel prev nobjs =
      .ok (nobjs + (insideOf set (t.nextObjByDepth type prev)).length) := by
  induction fuel generalizing prev nobjs with
  | zero => simp at hfuel
  | succ fuel ih =>
    rw [Topology.countInside, nextObjInside_eq hprev]
    cases hskip : Topology.skipOutside set (t.nextObjByDepth type prev) with
    | none =>
      rw [skipOutside_none hskip]
      rfl
    | some next =>
      obtain ⟨obj, cousins⟩ := next
      obtain ⟨hcount, hlen⟩ := skipOutside_some hskip
      have hnext : t.nextObjByDepth type (some (obj, cousins)) = cousins := rfl
      dsimp only
      rw [ih (by rw [hnext]; omega) (by rw [hnext]; omega), hnext, hcount]
      congr 1
      omega

/-- The walk over the whole machine counts the objects of the type that have units. -/
theorem nobjsInMachine_eq {h : QuoHwloc} {type : ObjType} {realType : HwlocType}
    (htype : ext2intobj type = .ok realType)
    (hinside : ∀ obj ∈ h.topo.level realType, obj.cpuset ⊆ h.topo.root.cpuset) :
    nobjsInTypeByType false h .machine 0 type =
      (.ok (), ((h.topo.level realType).filter fun obj => obj.cpuset ≠ ∅).length) := by
  have hroot : getObjByType h .machine 0 = .ok h.topo.root := rfl
  have hfilter : insideOf h.topo.root.cpuset (h.topo.level realType) =
      (h.topo.level realType).filter fun obj => obj.cpuset ≠ ∅ := by
    apply List.filter_congr
    intro obj hobj
    simp [hinside obj hobj]
  have hcount : countInType false h .machine 0 type =
      .ok (insideOf h.topo.root.cpuset (h.topo.level realType)).length := by
    have hwalk : h.topo.countInside h.topo.root.cpuset realType
        ((h.topo.level realType).length + 1) none 0 =
          .ok (0 + (insideOf h.topo.root.cpuset (h.topo.level realType)).length) :=
      countInside_eq (Nat.le_refl _) (Nat.lt_succ_self _)
    rw [countInType, hroot, ok_bind, if_neg (by decide), htype, ok_bind, hwalk, Nat.zero_add]
  rw [nobjsInTypeByType, hcount, hfilter]

/-- The size of the level, which is zero if there is none. -/
theorem nobjsByType_eq {h : QuoHwloc} {type : ObjType} {realType : HwlocType}
    (htype : ext2intobj type = .ok realType) (out : Nat) :
    nobjsByType h type out = (.ok (), (h.topo.level realType).length) := by
  simp only [nobjsByType, htype, Topology.typeDepth]
  by_cases hlevel : h.topo.level realType = []
  · rw [if_pos hlevel, hlevel]
    rfl
  · rw [if_neg hlevel]
    rfl

/-- The two ways of counting the objects of a type succeed and agree exactly if every object
of the type has units. -/
theorem countsAgree_iff {h : QuoHwloc} {type : ObjType} {realType : HwlocType}
    (htype : ext2intobj type = .ok realType)
    (hinside : ∀ type, ∀ obj ∈ h.topo.level type, obj.cpuset ⊆ h.topo.root.cpuset) (out : Nat) :
    (∃ nobjs, nobjsInTypeByType false h .machine 0 type = (.ok (), nobjs) ∧
        nobjsByType h type out = (.ok (), nobjs)) ↔
      ∀ obj ∈ h.topo.level realType, obj.cpuset ≠ ∅ := by
  rw [nobjsInMachine_eq htype (hinside realType), nobjsByType_eq htype out]
  constructor
  · rintro ⟨nobjs, hwalk, hlevel⟩
    have hlen := (Prod.mk.inj hwalk).2.trans (Prod.mk.inj hlevel).2.symm
    simpa using List.length_filter_eq_length_iff.mp hlen
  · intro hunits
    have hall : (h.topo.level realType).filter (fun obj => obj.cpuset ≠ ∅) =
        h.topo.level realType := List.filter_eq_self.mpr (by simpa using hunits)
    exact ⟨_, by rw [hall], rfl⟩

theorem newProcess_countsAgree : ∃ nobjs,
    nobjsInTypeByType false newProcess.hwloc .machine 0 .core = (.ok (), nobjs) ∧
      nobjsByType newProcess.hwloc .core 0 = (.ok (), nobjs) := by
  refine (countsAgree_iff rfl (fun type => ?_) 0).mpr (by decide +kernel)
  cases type with
  | _ => decide +kernel

/-- Two cores, and a NUMA node that is memory alone. -/
def memoryNode : Topology where
  root := ⟨{0, 1}, {0, 1}⟩
  numanodes := [⟨{0, 1}, {0, 1}⟩, ⟨∅, ∅⟩]
  packages := [⟨{0, 1}, {0, 1}⟩]
  cores := [⟨{0}, {0}⟩, ⟨{1}, {1}⟩]
  pus := [⟨{0}, {0}⟩, ⟨{1}, {1}⟩]

/-- The walk counts one NUMA node, and the level has two. -/
theorem memoryNode_disagree : ∃ h, create .bundled noFaults memoryNode {0, 1} = (.ok (), h) ∧
    nobjsInTypeByType false h .machine 0 .numanode = (.ok (), 1) ∧
    nobjsByType h .numanode 0 = (.ok (), 2) := by
  obtain ⟨h, hc⟩ := create_bundled memoryNode {0, 1}
  obtain ⟨htopo, -⟩ := create_ok hc
  refine ⟨h, hc, ?_, ?_⟩
  · have hinside : ∀ obj ∈ h.topo.level .numanode, obj.cpuset ⊆ h.topo.root.cpuset := by
      rw [htopo]
      decide
    rw [nobjsInMachine_eq rfl hinside, htopo]
    rfl
  · rw [nobjsByType_eq rfl, htopo]
    rfl

end LibQuo.Bind
