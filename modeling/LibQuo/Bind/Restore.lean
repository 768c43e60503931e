import LibQuo.Bind.HyperThreads
import LibQuo.Bind.Cover

/-!
A push on a new context and its pop, with the calls of the bundled `hwloc`. The saved
binding is read through the topology of the context; with `QUO_CREATE_NO_MT` that one
knows less than the machine has.
-/

namespace LibQuo.Bind
open CMem

variable {t : Topology} {mask : Cpuset}

/-- What is read of a mask is stored again as that mask exactly if the topology knows all of
its units, and if it is the complete set in case it holds all others. -/
theorem fixCpubind_cutMask_iff (hne : mask ≠ ∅) : t.fixCpubind (t.cutMask mask) = some mask ↔
    mask ⊆ t.root.completeCpuset ∧
      (t.root.cpuset ⊆ mask → t.root.completeCpuset = mask) := by
  constructor
  · intro h
    unfold Topology.fixCpubind at h
    split at h
    · simp at h
    · split at h
      · simp at h
      · next hsub =>
        split at h
        · obtain rfl := Option.some.inj h
          exact ⟨Finset.Subset.refl _, fun _ => rfl⟩
        · next hnot =>
          have hcut : t.cutMask mask = mask := Option.some.inj h
          rw [hcut] at hsub hnot
          exact ⟨not_not.mp hsub, fun hall => absurd hall hnot⟩
  · rintro ⟨hsub, hall⟩
    rw [cutMask_of_subset hsub, Topology.fixCpubind, if_neg hne, if_neg (not_not.mpr hsub)]
    split
    · next h => rw [hall h]
    · rfl

/-- The masks of the process that a context can establish again: all of them but one that
holds the whole topology and is not complete; and with `QUO_CREATE_NO_MT` those of lowest
units of cores alone. -/
def Restorable (flags : CreateFlags) (t : Topology) (mask : Cpuset) : Prop :=
  match flags with
  | .noFlags => t.root.cpuset ⊆ mask → t.root.completeCpuset = mask
  | .noMt => ∀ pu ∈ mask, ∃ core ∈ t.cores, pu ∈ singlify core.cpuset

/-- What the context of a process can establish again of a mask inside the machine. -/
theorem loadedTopo_restorable (ht : t.Machine) (hcomplete : t.root.cpuset ⊆ t.root.completeCpuset)
    (flags : CreateFlags) (nid : Nat) (hmask : mask ⊆ t.root.completeCpuset) :
    (mask ⊆ (loadedTopo flags nid t).root.completeCpuset ∧
        ((loadedTopo flags nid t).root.cpuset ⊆ mask →
          (loadedTopo flags nid t).root.completeCpuset = mask)) ↔
      Restorable flags t mask := by
  cases flags with
  | noFlags =>
    rw [loadedTopo_noFlags]
    exact ⟨fun h => h.2, fun h => ⟨hmask, h⟩⟩
  | noMt =>
    obtain ⟨hone, -, hload, -⟩ := disableHt_spec ht
    rw [hload]
    have hlow : (topoDisableHt t).root.completeCpuset = (topoDisableHt t).root.cpuset := by
      rw [ht.complete_disableHt hcomplete, ht.root_disableHt]
    rw [hlow]
    constructor
    · rintro ⟨hsub, -⟩ pu hpu
      exact (hone.root pu).mp (hsub hpu)
    · intro h
      have hsub : mask ⊆ (topoDisableHt t).root.cpuset :=
        fun pu hpu => (hone.root pu).mpr (h pu hpu)
      exact ⟨hsub, fun hall => hall.antisymm hsub⟩

/-- On a new context, every successful push is undone by the pop that follows exactly if
the mask of the process is restorable. -/
theorem pop_restores_iff {flags : CreateFlags} {nid : Nat} {f f' : Faults} {h h' : QuoHwloc}
    {live : Cpuset} {policy : Policy} {type : ObjType} {objIndex : Int32} (ht : t.Machine)
    (hcomplete : t.root.cpuset ⊆ t.root.completeCpuset) (hne : mask ≠ ∅)
    (hmask : mask ⊆ t.root.completeCpuset)
    (hc : create .bundled f (loadedTopo flags nid t) mask = (.ok (), h))
    (hx : (Call.push policy type objIndex).exec .bundled f' h mask = (.ok (), h', live)) :
    (∃ h'', Call.pop.exec .bundled noFaults h' live = (.ok (), h'', mask)) ↔
      Restorable flags t mask := by
  rw [← loadedTopo_restorable ht hcomplete flags nid hmask]
  generalize loadedTopo flags nid t = topo at hc ⊢
  obtain ⟨htopo, -, hholds, -⟩ := create_ok hc
  obtain ⟨htopo', hholds', -⟩ := bindPush_ok hholds hx
  have hfix : (∃ h'', Call.pop.exec .bundled noFaults h' live = (.ok (), h'', mask)) ↔
      topo.fixCpubind (topo.cutMask mask) = some mask := by
    have hset : topo.fixCpubind (topo.cutMask mask) =
        Hooks.bundled.setCpubind h'.topo (topo.cutMask mask) := by rw [htopo', htopo]; rfl
    rw [hset]
    rcases bindPop_cases .bundled noFaults live hholds' with
      ⟨hnil, -⟩ | ⟨-, b', -, ⟨init, below, mask', hlast, -, hmask', -, heq⟩ | ⟨hnot, e, heq⟩⟩
    · simp at hnil
    · have hbelow : [] ++ [topo.cutMask mask] = init ++ [below] := hlast
      obtain rfl := (List.cons.inj (List.append_inj' hbelow rfl).2).1
      rw [hmask']
      constructor
      · rintro ⟨h'', hpop⟩
        obtain ⟨-, hrest⟩ := Prod.mk.inj (heq.symm.trans hpop)
        rw [(Prod.mk.inj hrest).2]
      · intro hsame
        rw [← Option.some.inj hsame]
        exact ⟨_, heq⟩
    · constructor
      · rintro ⟨h'', hpop⟩
        have hok := congrArg Prod.fst (heq.symm.trans hpop)
        simp at hok
      · intro hsome
        exact absurd ⟨rfl, rfl, by simp [hsome]⟩ (hnot [] (topo.cutMask mask) rfl)
  rw [hfix, fixCpubind_cutMask_iff hne]

/-- A process that is bound to the first unit of the first core creates a context without
hyper-threads. -/
def lowProcess : Process := .start .bundled (loadedTopo .noMt 0 hyperCores) {0}

/-- It has pushed the second core. -/
def raisedProcess : Process := lowProcess.after .bundled (.push .provided .core 1)

theorem raisedProcess_restored : ∃ h'',
    Call.pop.exec .bundled noFaults raisedProcess.hwloc raisedProcess.live =
      (.ok (), h'', {0}) := by
  have hc : create .bundled noFaults (loadedTopo .noMt 0 hyperCores) {0} =
      (.ok (), lowProcess.hwloc) := Prod.ext (by decide +kernel) rfl
  have hx : (Call.push .provided .core 1).exec .bundled noFaults lowProcess.hwloc {0} =
      (.ok (), raisedProcess.hwloc, raisedProcess.live) := Prod.ext (by decide +kernel) rfl
  refine (pop_restores_iff hyperCores_machine (by decide) (by decide) (by decide) hc hx).mpr ?_
  show ∀ pu ∈ ({0} : Cpuset), ∃ core ∈ hyperCores.cores, pu ∈ singlify core.cpuset
  decide

/-- A process that is bound to the whole machine does so. -/
def wideProcess : Process := .start .bundled (loadedTopo .noMt 0 hyperCores) {0, 1, 2, 3}

/-- Its push succeeds. Its pop fails, and leaves the process bound to the first core. -/
theorem wideProcess_stuck :
    create .bundled noFaults (loadedTopo .noMt 0 hyperCores) {0, 1, 2, 3} =
        (.ok (), wideProcess.hwloc) ∧
      ((Call.push .provided .core 0).exec .bundled noFaults wideProcess.hwloc
        wideProcess.live).1 = .ok () ∧
      (Call.pop.exec .bundled noFaults
        (wideProcess.after .bundled (.push .provided .core 0)).hwloc
        (wideProcess.after .bundled (.push .provided .core 0)).live).1 =
          .error (.code .errNotSupported) ∧
      ((wideProcess.after .bundled (.push .provided .core 0)).after .bundled .pop).live = {0} :=
  ⟨Prod.ext (by decide +kernel) rfl, by decide +kernel, by decide +kernel, by decide +kernel⟩

end LibQuo.Bind
