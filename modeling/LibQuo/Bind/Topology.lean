import Mathlib.Data.Finset.Max
import Mathlib.Data.Finset.Lattice.Fold

/-!
The part of the bundled `hwloc` that `quo-hwloc.c` binds processes with: topologies as
levels of objects, the restriction of a topology, and what its binding calls do to the
affinity mask of the process.
-/

namespace LibQuo.Bind

abbrev Cpuset := Finset Nat

/-- `hwloc_bitmap_singlify`: only the lowest number is kept. -/
def singlify (s : Cpuset) : Cpuset := if h : s.Nonempty then {s.min' h} else ∅

structure Obj where
  cpuset : Cpuset
  completeCpuset : Cpuset
  deriving DecidableEq

inductive HwlocType
  | machine
  | numanode
  | package
  | core
  | pu
  deriving DecidableEq, Repr

/-- A loaded topology: its root and, in logical order, the objects of each other type. -/
structure Topology where
  root : Obj
  numanodes : List Obj
  packages : List Obj
  cores : List Obj
  pus : List Obj
  deriving DecidableEq

namespace Topology

def level (t : Topology) : HwlocType → List Obj
  | .machine => [t.root]
  | .numanode => t.numanodes
  | .package => t.packages
  | .core => t.cores
  | .pu => t.pus

def objByType (t : Topology) (type : HwlocType) (idx : Nat) : Option Obj := (t.level type)[idx]?

/-- `hwloc_get_next_obj_covering_cpuset_by_type` without a previous object: the first
one that shares a unit with `set`. -/
def nextObjCovering (t : Topology) (set : Cpuset) (type : HwlocType) : Option Obj :=
  (t.level type).find? fun obj => set ∩ obj.cpuset ≠ ∅

/-- The objects that `hwloc_get_obj_inside_cpuset_by_type` numbers. -/
def objsInside (t : Topology) (set : Cpuset) (type : HwlocType) : List Obj :=
  (t.level type).filter fun obj => obj.cpuset ≠ ∅ ∧ obj.cpuset ⊆ set

end Topology

/-- What is left of an object. -/
def Obj.restrict (obj : Obj) (set : Cpuset) : Obj :=
  ⟨obj.cpuset ∩ set, obj.completeCpuset ∩ set⟩

namespace Topology

def restrictLevel (objs : List Obj) (set : Cpuset) : List Obj :=
  (objs.map fun obj => obj.restrict set).filter fun obj => obj.cpuset ≠ ∅

/-- `hwloc_topology_restrict` without flags. A set that would leave nothing is refused;
NUMA nodes stay even if they are left empty. The order of a level is kept, where hwloc sorts
the children of an object again by their first units; and every package that is left empty
goes, where hwloc keeps the one above a NUMA node. -/
def restrict (t : Topology) (set : Cpuset) : Topology :=
  if set ∩ t.root.cpuset = ∅ then t
  else {
    root := t.root.restrict set
    numanodes := t.numanodes.map fun obj => obj.restrict set
    packages := restrictLevel t.packages set
    cores := restrictLevel t.cores set
    pus := restrictLevel t.pus set }

def fixCpubind (t : Topology) (set : Cpuset) : Option Cpuset :=
  if set = ∅ then none
  else if ¬set ⊆ t.root.completeCpuset then none
  else if t.root.cpuset ⊆ set then some t.root.completeCpuset
  else some set

/-- What `hwloc_get_proc_cpubind` reads of a mask: the units up to the last one the
topology knows, or all if it knows none. -/
def cutMask (t : Topology) (mask : Cpuset) : Cpuset :=
  if h : t.root.completeCpuset.Nonempty then
    mask.filter fun cpu => cpu ≤ t.root.completeCpuset.max' h
  else mask

end Topology

/-- What the binding calls of `hwloc` do when the system does not refuse them: the mask
that a call of `hwloc_set_cpubind` leaves, if it accepts the set, and what
`hwloc_get_proc_cpubind` makes of a mask. -/
structure Hooks where
  setCpubind : Topology → Cpuset → Option Cpuset
  procCpubind : Topology → Cpuset → Cpuset

/-- The calls of the bundled `hwloc`. -/
def Hooks.bundled : Hooks := ⟨Topology.fixCpubind, Topology.cutMask⟩

/-- The set that is given is the set that is stored and read. -/
structure Hooks.Exact (hooks : Hooks) : Prop where
  set : ∀ t s mask, hooks.setCpubind t s = some mask → mask = s
  get : ∀ t mask, hooks.procCpubind t mask = mask

/-- `topo_disable_ht`: the topology is restricted to the lowest unit of every core. -/
def topoDisableHt (t : Topology) : Topology :=
  let noht := (t.objsInside t.root.cpuset .core).foldl
    (fun set core => set ∪ singlify core.cpuset) ∅
  t.restrict noht

end LibQuo.Bind
