import LibQuo.Bind.Stack
import Mathlib.Data.List.Pairwise

/-!
`QUO_CREATE_NO_MT`: every process restricts its topology to the lowest unit of each core.
The first process of a node does so once; the others load what it exports, and do so
again.
-/

namespace LibQuo.Bind
open CMem

/-- `QUO_create_flags_t`. -/
inductive CreateFlags
  | noFlags
  | noMt
  deriving DecidableEq, Repr

/-- `topo_load`, on the topology that is discovered or imported. -/
def topoLoad (flags : CreateFlags) (t : Topology) : Topology :=
  match flags with
  | .noFlags => t
  | .noMt => topoDisableHt t

/-- The topology of a process after `quo_hwloc_init`. -/
def loadedTopo (flags : CreateFlags) (nid : Nat) (t : Topology) : Topology :=
  let exported := topoLoad flags t
  if nid = 0 then exported else topoLoad flags exported

/-- Cores that share no unit, and units that each lie in a core. -/
structure Topology.Machine (t : Topology) : Prop where
  some : t.cores ≠ []
  nonempty : ∀ core ∈ t.cores, core.cpuset ≠ ∅
  disjoint : t.cores.Pairwise fun x y => Disjoint x.cpuset y.cpuset
  root : ∀ pu, pu ∈ t.root.cpuset ↔ ∃ core ∈ t.cores, pu ∈ core.cpuset
  pus : ∃ units : List Nat, units.Nodup ∧ (∀ pu, pu ∈ units ↔ pu ∈ t.root.cpuset) ∧
    t.pus.map (·.cpuset) = units.map ({·})

/-! ## Singlify -/

variable {s : Cpuset} {pu : Nat}

theorem singlify_of_nonempty (h : s ≠ ∅) :
    singlify s = {s.min' (Finset.nonempty_iff_ne_empty.mpr h)} := by
  rw [singlify, dif_pos (Finset.nonempty_iff_ne_empty.mpr h)]

theorem singlify_subset (s : Cpuset) : singlify s ⊆ s := by
  unfold singlify
  split
  · next h => simpa using Finset.min'_mem s h
  · exact Finset.empty_subset s

theorem singlify_nonempty (h : s ≠ ∅) : singlify s ≠ ∅ := by
  rw [singlify_of_nonempty h]
  exact Finset.singleton_ne_empty _

theorem card_singlify (h : s ≠ ∅) : (singlify s).card = 1 := by
  rw [singlify_of_nonempty h, Finset.card_singleton]

theorem singlify_singlify (s : Cpuset) : singlify (singlify s) = singlify s := by
  by_cases h : s = ∅
  · subst h
    rfl
  · rw [singlify_of_nonempty h, singlify_of_nonempty (Finset.singleton_ne_empty _),
      Finset.min'_singleton]

def lowestUnits (cores : List Obj) (set : Cpuset) : Cpuset :=
  cores.foldl (fun set core => set ∪ singlify core.cpuset) set

theorem mem_lowestUnits {cores : List Obj} {set : Cpuset} : pu ∈ lowestUnits cores set ↔
    pu ∈ set ∨ ∃ core ∈ cores, pu ∈ singlify core.cpuset := by
  induction cores generalizing set with
  | nil => simp [lowestUnits]
  | cons core cores ih =>
    have hstep : lowestUnits (core :: cores) set = lowestUnits cores (set ∪ singlify core.cpuset) :=
      rfl
    rw [hstep, ih, Finset.mem_union]
    simp [or_assoc]

/-! ## Restriction -/

theorem restrict_restrict_obj (obj : Obj) (s : Cpuset) :
    (obj.restrict s).restrict s = obj.restrict s := by
  simp [Obj.restrict]

theorem restrictLevel_restrictLevel (objs : List Obj) (s : Cpuset) :
    Topology.restrictLevel (Topology.restrictLevel objs s) s = Topology.restrictLevel objs s := by
  have hsame : (Topology.restrictLevel objs s).map (·.restrict s) =
      Topology.restrictLevel objs s := by
    conv_rhs => rw [← List.map_id (Topology.restrictLevel objs s)]
    refine List.map_congr_left fun obj hobj => ?_
    obtain ⟨obj', -, rfl⟩ := List.mem_map.mp (List.mem_of_mem_filter hobj)
    exact restrict_restrict_obj obj' s
  unfold Topology.restrictLevel at hsame ⊢
  rw [hsame, List.filter_filter]
  simp

theorem restrictLevel_cpusets (objs : List Obj) (s : Cpuset) :
    (Topology.restrictLevel objs s).map (·.cpuset) =
      ((objs.map (·.cpuset)).map (· ∩ s)).filter (· ≠ ∅) := by
  unfold Topology.restrictLevel
  rw [List.map_map, List.filter_map, List.filter_map, List.map_map]
  rfl

/-- A second restriction to the same set finds nothing to remove. -/
theorem restrict_restrict (t : Topology) (s : Cpuset) :
    (t.restrict s).restrict s = t.restrict s := by
  by_cases h : s ∩ t.root.cpuset = ∅
  · have hid : t.restrict s = t := by rw [Topology.restrict, if_pos h]
    rw [hid, hid]
  · have hroot : s ∩ (t.root.cpuset ∩ s) ≠ ∅ := by
      rwa [Finset.inter_comm t.root.cpuset, ← Finset.inter_assoc, Finset.inter_self]
    have hmap (objs : List Obj) :
        (objs.map (·.restrict s)).map (·.restrict s) = objs.map (·.restrict s) := by
      rw [List.map_map]
      exact List.map_congr_left fun obj _ => restrict_restrict_obj obj s
    simp only [Topology.restrict, if_neg h]
    rw [if_neg (by exact hroot)]
    simp only [hmap, restrict_restrict_obj, restrictLevel_restrictLevel]

/-! ## One unit per core -/

namespace Topology.Machine

variable {t : Topology}

theorem core_subset (ht : t.Machine) {core : Obj} (hc : core ∈ t.cores) :
    core.cpuset ⊆ t.root.cpuset := fun pu hpu => (ht.root pu).mpr ⟨core, hc, hpu⟩

theorem objsInside (ht : t.Machine) : t.objsInside t.root.cpuset .core = t.cores := by
  refine List.filter_eq_self.mpr fun core hc => ?_
  simpa using ⟨ht.nonempty core hc, ht.core_subset hc⟩

theorem disableHt (ht : t.Machine) : topoDisableHt t = t.restrict (lowestUnits t.cores ∅) := by
  rw [topoDisableHt, ht.objsInside]
  rfl

theorem mem_lowest (_ : t.Machine) : pu ∈ lowestUnits t.cores ∅ ↔
    ∃ core ∈ t.cores, pu ∈ singlify core.cpuset := by
  simp [mem_lowestUnits]

theorem lowest_subset (ht : t.Machine) : lowestUnits t.cores ∅ ⊆ t.root.cpuset := by
  intro pu hpu
  obtain ⟨core, hc, hmem⟩ := ht.mem_lowest.mp hpu
  exact ht.core_subset hc (singlify_subset _ hmem)

theorem lowest_meets (ht : t.Machine) : lowestUnits t.cores ∅ ∩ t.root.cpuset ≠ ∅ := by
  obtain ⟨core, hc⟩ := List.exists_mem_of_ne_nil _ ht.some
  obtain ⟨pu, hpu⟩ := Finset.nonempty_iff_ne_empty.mpr (singlify_nonempty (ht.nonempty core hc))
  rw [Finset.inter_eq_left.mpr ht.lowest_subset]
  exact Finset.ne_empty_of_mem (ht.mem_lowest.mpr ⟨core, hc, hpu⟩)

/-- A core keeps its own lowest unit, and no other core adds a second one. -/
theorem core_inter_lowest (ht : t.Machine) {core : Obj} (hc : core ∈ t.cores) :
    core.cpuset ∩ lowestUnits t.cores ∅ = singlify core.cpuset := by
  have hsymm : Std.Symm fun x y : Obj => Disjoint x.cpuset y.cpuset := ⟨fun _ _ h => h.symm⟩
  ext pu
  rw [Finset.mem_inter, ht.mem_lowest]
  constructor
  · rintro ⟨hpu, other, ho, hlow⟩
    by_cases heq : core = other
    · rwa [heq]
    · exact absurd (singlify_subset _ hlow)
        (Finset.disjoint_left.mp (ht.disjoint.forall hc ho heq) hpu)
  · intro hlow
    exact ⟨singlify_subset _ hlow, core, hc, hlow⟩

/-- The cores stay, each with its lowest unit. -/
theorem cores_disableHt (ht : t.Machine) :
    (topoDisableHt t).cores = t.cores.map (·.restrict (lowestUnits t.cores ∅)) := by
  rw [ht.disableHt, Topology.restrict, if_neg ht.lowest_meets]
  refine List.filter_eq_self.mpr fun obj hobj => ?_
  obtain ⟨core, hc, rfl⟩ := List.mem_map.mp hobj
  have hcore : (core.restrict (lowestUnits t.cores ∅)).cpuset = singlify core.cpuset :=
    ht.core_inter_lowest hc
  simpa [hcore] using singlify_nonempty (ht.nonempty core hc)

theorem root_disableHt (ht : t.Machine) :
    (topoDisableHt t).root.cpuset = lowestUnits t.cores ∅ := by
  rw [ht.disableHt, Topology.restrict, if_neg ht.lowest_meets]
  exact Finset.inter_eq_right.mpr ht.lowest_subset

theorem complete_disableHt (ht : t.Machine) (hcomplete : t.root.cpuset ⊆ t.root.completeCpuset) :
    (topoDisableHt t).root.completeCpuset = lowestUnits t.cores ∅ := by
  rw [ht.disableHt, Topology.restrict, if_neg ht.lowest_meets]
  exact Finset.inter_eq_right.mpr (ht.lowest_subset.trans hcomplete)

theorem mem_cores_disableHt (ht : t.Machine) {obj : Obj} (h : obj ∈ (topoDisableHt t).cores) :
    ∃ core ∈ t.cores, obj.cpuset = singlify core.cpuset := by
  rw [ht.cores_disableHt] at h
  obtain ⟨core, hc, rfl⟩ := List.mem_map.mp h
  exact ⟨core, hc, ht.core_inter_lowest hc⟩

/-- The lowest units of the restricted cores are all that they have. -/
theorem lowest_disableHt (ht : t.Machine) :
    lowestUnits ((topoDisableHt t).objsInside (topoDisableHt t).root.cpuset .core) ∅ =
      lowestUnits t.cores ∅ := by
  have hinside : (topoDisableHt t).objsInside (topoDisableHt t).root.cpuset .core =
      (topoDisableHt t).cores := by
    refine List.filter_eq_self.mpr fun obj hobj => ?_
    obtain ⟨core, hc, hset⟩ := ht.mem_cores_disableHt hobj
    have hsub : singlify core.cpuset ⊆ lowestUnits t.cores ∅ := fun pu hpu =>
      ht.mem_lowest.mpr ⟨core, hc, hpu⟩
    rw [hset, ht.root_disableHt]
    simpa using ⟨singlify_nonempty (ht.nonempty core hc), hsub⟩
  rw [hinside]
  ext pu
  rw [mem_lowestUnits, ht.mem_lowest, ht.cores_disableHt]
  simp only [Finset.notMem_empty, false_or, List.mem_map, exists_exists_and_eq_and]
  refine exists_congr fun core => and_congr_right fun hc => ?_
  have hcore : (core.restrict (lowestUnits t.cores ∅)).cpuset = singlify core.cpuset :=
    ht.core_inter_lowest hc
  rw [hcore, singlify_singlify]

/-- A second application finds nothing to remove. -/
theorem disableHt_disableHt (ht : t.Machine) :
    topoDisableHt (topoDisableHt t) = topoDisableHt t := by
  have hagain : topoDisableHt (topoDisableHt t) =
      (topoDisableHt t).restrict (lowestUnits t.cores ∅) := by
    rw [← ht.lowest_disableHt]
    rfl
  rw [hagain, ht.disableHt, restrict_restrict]

/-- Each core has one unit among the units that stay. -/
theorem pus_disableHt (ht : t.Machine) {core : Obj} (hc : core ∈ t.cores) :
    ((topoDisableHt t).pus.filter fun pu => pu.cpuset ⊆ core.cpuset).map (·.cpuset) =
      [singlify core.cpuset] := by
  obtain ⟨units, hnodup, hmem, hunits⟩ := ht.pus
  have hlow := singlify_of_nonempty (ht.nonempty core hc)
  generalize core.cpuset.min' (Finset.nonempty_iff_ne_empty.mpr (ht.nonempty core hc)) = low at hlow
  have hlowmem : low ∈ singlify core.cpuset := by simp [hlow]
  have hpus : (topoDisableHt t).pus = Topology.restrictLevel t.pus (lowestUnits t.cores ∅) := by
    rw [ht.disableHt, Topology.restrict, if_neg ht.lowest_meets]
  have hkept : ∀ pu, (({pu} : Cpuset) ∩ lowestUnits t.cores ∅ ≠ ∅ ∧
      ({pu} : Cpuset) ∩ lowestUnits t.cores ∅ ⊆ core.cpuset) ↔ pu = low := by
    intro pu
    by_cases hpu : pu ∈ lowestUnits t.cores ∅
    · rw [Finset.singleton_inter_of_mem hpu]
      simp only [ne_eq, Finset.singleton_ne_empty, not_false_eq_true, true_and,
        Finset.singleton_subset_iff]
      constructor
      · intro hcore
        have hboth : pu ∈ core.cpuset ∩ lowestUnits t.cores ∅ := Finset.mem_inter.mpr ⟨hcore, hpu⟩
        rw [ht.core_inter_lowest hc, hlow] at hboth
        exact Finset.mem_singleton.mp hboth
      · rintro rfl
        exact singlify_subset _ hlowmem
    · rw [Finset.singleton_inter_of_notMem hpu]
      simp only [ne_eq, not_true_eq_false, false_and, false_iff]
      rintro rfl
      exact hpu (ht.mem_lowest.mpr ⟨core, hc, hlowmem⟩)
  have hroot : low ∈ units := (hmem low).mpr (ht.core_subset hc (singlify_subset _ hlowmem))
  have hfilter : ((topoDisableHt t).pus.filter fun pu => pu.cpuset ⊆ core.cpuset).map (·.cpuset) =
      ((topoDisableHt t).pus.map (·.cpuset)).filter (· ⊆ core.cpuset) := by
    rw [List.filter_map]
    rfl
  have hone : (units.filter fun pu => ({pu} : Cpuset) ∩ lowestUnits t.cores ∅ ≠ ∅ ∧
      ({pu} : Cpuset) ∩ lowestUnits t.cores ∅ ⊆ core.cpuset) = [low] := by
    rw [List.filter_congr fun pu _ => decide_eq_decide.mpr (hkept pu), List.filter_eq,
      List.count_eq_one_of_mem hnodup hroot, List.replicate_one]
  have hset : ({low} : Cpuset) ∩ lowestUnits t.cores ∅ = {low} :=
    Finset.singleton_inter_of_mem (ht.mem_lowest.mpr ⟨core, hc, hlowmem⟩)
  calc ((topoDisableHt t).pus.filter fun pu => pu.cpuset ⊆ core.cpuset).map (·.cpuset)
      = (((units.map ({·} : Nat → Cpuset)).map (· ∩ lowestUnits t.cores ∅)).filter
          (· ≠ ∅)).filter (· ⊆ core.cpuset) := by
        rw [hfilter, hpus, restrictLevel_cpusets, hunits]
    _ = (units.filter fun pu => ({pu} : Cpuset) ∩ lowestUnits t.cores ∅ ≠ ∅ ∧
          ({pu} : Cpuset) ∩ lowestUnits t.cores ∅ ⊆ core.cpuset).map
          fun pu => ({pu} : Cpuset) ∩ lowestUnits t.cores ∅ := by
        rw [List.map_map, List.filter_filter, List.filter_map]
        congr 1
        refine List.filter_congr fun pu _ => ?_
        simp [Bool.and_comm]
    _ = [singlify core.cpuset] := by
        rw [hone, hlow, List.map_singleton, hset]

end Topology.Machine

/-- The cores of `t` stay, in their order, each with its lowest unit alone; nothing else
is left of the machine. -/
structure OnePuPerCore (t t' : Topology) : Prop where
  cores : t'.cores.map (·.cpuset) = t.cores.map fun core => singlify core.cpuset
  card : ∀ core ∈ t'.cores, core.cpuset.card = 1
  root : ∀ pu, pu ∈ t'.root.cpuset ↔ ∃ core ∈ t.cores, pu ∈ singlify core.cpuset
  pus : ∀ core ∈ t.cores,
    (t'.pus.filter fun pu => pu.cpuset ⊆ core.cpuset).map (·.cpuset) = [singlify core.cpuset]

/-- Every process of a node ends up with one and the same topology, which has one unit per
core, and a second application does nothing to it. -/
theorem disableHt_spec {t : Topology} (ht : t.Machine) :
    OnePuPerCore t (topoDisableHt t) ∧ topoDisableHt (topoDisableHt t) = topoDisableHt t ∧
      (∀ nid, loadedTopo .noMt nid t = topoDisableHt t) ∧
      ∀ (hooks : Hooks) (f f' : Faults) (nid nid' : Nat) (live live' : Cpuset) (h h' : QuoHwloc),
        create hooks f (loadedTopo .noMt nid t) live = (.ok (), h) →
        create hooks f' (loadedTopo .noMt nid' t) live' = (.ok (), h') →
        h'.topo = h.topo ∧ h'.widestCpuset = h.widestCpuset := by
  have hload (nid : Nat) : loadedTopo .noMt nid t = topoDisableHt t := by
    show (if nid = 0 then topoDisableHt t else topoDisableHt (topoDisableHt t)) = _
    split
    · rfl
    · exact ht.disableHt_disableHt
  refine ⟨⟨?_, ?_, ?_, fun core hc => ht.pus_disableHt hc⟩, ht.disableHt_disableHt, hload, ?_⟩
  · rw [ht.cores_disableHt, List.map_map]
    exact List.map_congr_left fun core hc => ht.core_inter_lowest hc
  · intro obj hobj
    obtain ⟨core, hc, hset⟩ := ht.mem_cores_disableHt hobj
    rw [hset, card_singlify (ht.nonempty core hc)]
  · intro pu
    rw [ht.root_disableHt]
    exact ht.mem_lowest
  · intro hooks f f' nid nid' live live' h h' hc hc'
    rw [hload] at hc hc'
    obtain ⟨htopo, hwidest, -⟩ := create_ok hc
    obtain ⟨htopo', hwidest', -⟩ := create_ok hc'
    exact ⟨htopo'.trans htopo.symm, hwidest'.trans hwidest.symm⟩

theorem loadedTopo_noFlags (nid : Nat) (t : Topology) : loadedTopo .noFlags nid t = t := by
  show (if nid = 0 then t else t) = t
  rw [ite_self]

/-- Two cores of two units each, numbered core after core. -/
def hyperCores : Topology where
  root := ⟨{0, 1, 2, 3}, {0, 1, 2, 3}⟩
  numanodes := []
  packages := [⟨{0, 1, 2, 3}, {0, 1, 2, 3}⟩]
  cores := [⟨{0, 1}, {0, 1}⟩, ⟨{2, 3}, {2, 3}⟩]
  pus := [⟨{0}, {0}⟩, ⟨{1}, {1}⟩, ⟨{2}, {2}⟩, ⟨{3}, {3}⟩]

theorem hyperCores_machine : hyperCores.Machine where
  some := by decide
  nonempty := by decide
  disjoint := by decide
  root pu := by
    simp only [hyperCores, Finset.mem_insert, Finset.mem_singleton, List.mem_cons,
      List.not_mem_nil, or_false, exists_eq_or_imp, exists_eq_left]
    omega
  pus := by
    refine ⟨[0, 1, 2, 3], by decide, fun pu => ?_, rfl⟩
    simp [hyperCores]

theorem hyperCores_onePu : OnePuPerCore hyperCores (topoDisableHt hyperCores) ∧
    ∀ nid, loadedTopo .noMt nid hyperCores = topoDisableHt hyperCores :=
  ⟨(disableHt_spec hyperCores_machine).1, (disableHt_spec hyperCores_machine).2.2.1⟩

end LibQuo.Bind
