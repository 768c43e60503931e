import LibQuo.Bind.Restore

/-!
`QUO_bound`: whether the process is bound to less than the widest cpuset. That one is taken
from the topology of the context, which `QUO_CREATE_NO_MT` has restricted; the binding it is
compared to is read of the system, which knows nothing of that.
-/

namespace LibQuo.Bind
open CMem

/-- `quo_hwloc_bound`; `f` says whether the calls of `get_cur_bind` fail. -/
def hwlocBound (hooks : Hooks) (f : Faults) (h : QuoHwloc) (live : Cpuset) :
    Except (Halt Rc) Bool := do
  let curBind ← getCurBind hooks f .saveAlloc .saveGet h live
  return h.widestCpuset ≠ curBind

/-- What becomes of a context in a run of calls, successful or not, between which the mask of
the process may be set by others as well. -/
inductive Reached (hooks : Hooks) (h₀ : QuoHwloc) : QuoHwloc → Prop
  | new : Reached hooks h₀ h₀
  | call {h : QuoHwloc} (f : Faults) (c : Call) (live : Cpuset) :
      Reached hooks h₀ h → Reached hooks h₀ (c.exec hooks f h live).2.1

def contextUnits (flags : CreateFlags) (t : Topology) : Cpuset :=
  match flags with
  | .noFlags => t.root.cpuset
  | .noMt => lowestUnits t.cores ∅

/-- The units it knows of, available or not. -/
def knownUnits (flags : CreateFlags) (t : Topology) : Cpuset :=
  match flags with
  | .noFlags => t.root.completeCpuset
  | .noMt => lowestUnits t.cores ∅

/-- A mask that lacks some unit of the context, or holds, up to the last unit that the context
knows, units of the context only. -/
def Answered (flags : CreateFlags) (t : Topology) (mask : Cpuset) : Prop :=
  contextUnits flags t ⊆ mask →
    ∀ pu ∈ mask, (∃ last ∈ knownUnits flags t, pu ≤ last) → pu ∈ contextUnits flags t

section Context

variable {hooks : Hooks} {f : Faults} {h h₀ h' : QuoHwloc} {live : Cpuset}

/-- The topology and the widest cpuset of a context stay as they are. -/
structure SameTopo (h h' : QuoHwloc) : Prop where
  topo : h'.topo = h.topo
  widest : h'.widestCpuset = h.widestCpuset

theorem pushCurBind_sameTopo (h : QuoHwloc) (live : Cpuset) :
    SameTopo h (pushCurBind hooks f h live).2 := by
  unfold pushCurBind
  split
  · exact ⟨rfl, rfl⟩
  · exact ⟨rfl, rfl⟩

theorem bindPush_sameTopo (policy : Policy) (type : ObjType) (idx : Nat) (h : QuoHwloc)
    (live : Cpuset) : SameTopo h (bindPush hooks f policy type idx h live).2.1 := by
  unfold bindPush
  split
  · split
    · exact ⟨rfl, rfl⟩
    · exact pushCurBind_sameTopo h _
  · exact ⟨rfl, rfl⟩

theorem bindPop_sameTopo (h : QuoHwloc) (live : Cpuset) :
    SameTopo h (bindPop hooks f h live).2.1 := by
  unfold bindPop
  split
  · exact ⟨rfl, rfl⟩
  · split
    · exact ⟨rfl, rfl⟩
    · split
      · exact ⟨rfl, rfl⟩
      · split
        · exact ⟨rfl, rfl⟩
        · exact ⟨rfl, rfl⟩

/-- No run of calls changes the topology of a context, or its widest cpuset. -/
theorem Reached.sameTopo (hr : Reached hooks h₀ h) : SameTopo h₀ h := by
  induction hr with
  | new => exact ⟨rfl, rfl⟩
  | @call h f c live _ ih =>
    have hcall : SameTopo h (c.exec hooks f h live).2.1 := by
      cases c with
      | push policy type objIndex => exact bindPush_sameTopo policy type _ h live
      | pop => exact bindPop_sameTopo h live
    exact ⟨hcall.topo.trans ih.topo, hcall.widest.trans ih.widest⟩

theorem hwlocBound_ok {b : Bool} (hx : hwlocBound hooks f h live = .ok b) :
    b = false ↔ h.widestCpuset = hooks.procCpubind h.topo live := by
  rw [hwlocBound, bind_eq_ok] at hx
  obtain ⟨curBind, hget, hb⟩ := hx
  have hcur : hooks.procCpubind h.topo live = curBind := by
    unfold getCurBind at hget
    split at hget
    · simp at hget
    · split at hget
      · simp at hget
      · exact Except.ok.inj hget
  rw [hcur, ← Except.ok.inj hb]
  simp

end Context

section Units

variable {t : Topology} {mask : Cpuset}

theorem mem_cutMask (hknown : t.root.completeCpuset.Nonempty) {pu : Nat} :
    pu ∈ t.cutMask mask ↔ pu ∈ mask ∧ ∃ last ∈ t.root.completeCpuset, pu ≤ last := by
  rw [Topology.cutMask, dif_pos hknown, Finset.mem_filter]
  refine and_congr_right fun _ => ⟨fun hle => ⟨_, Finset.max'_mem _ hknown, hle⟩, ?_⟩
  rintro ⟨last, hlast, hle⟩
  exact hle.trans (Finset.le_max' _ _ hlast)

/-- What is read of a mask is the cpuset of the topology exactly if the mask holds all of it
and, up to the last unit known, nothing else. -/
theorem cutMask_eq_iff (hne : t.root.cpuset.Nonempty)
    (hcomplete : t.root.cpuset ⊆ t.root.completeCpuset) : t.root.cpuset = t.cutMask mask ↔
      t.root.cpuset ⊆ mask ∧
        ∀ pu ∈ mask, (∃ last ∈ t.root.completeCpuset, pu ≤ last) → pu ∈ t.root.cpuset := by
  have hmem (pu : Nat) := @mem_cutMask t mask (hne.mono hcomplete) pu
  constructor
  · intro heq
    refine ⟨fun pu hpu => ?_, fun pu hpu hlast => ?_⟩
    · rw [heq, hmem] at hpu
      exact hpu.1
    · rw [heq, hmem]
      exact ⟨hpu, hlast⟩
  · rintro ⟨hsub, honly⟩
    ext pu
    rw [hmem]
    constructor
    · intro hpu
      exact ⟨hsub hpu, pu, hcomplete hpu, le_rfl⟩
    · rintro ⟨hpu, hlast⟩
      exact honly pu hpu hlast

theorem loadedTopo_units (ht : t.Machine) (hcomplete : t.root.cpuset ⊆ t.root.completeCpuset)
    (flags : CreateFlags) (nid : Nat) :
    (loadedTopo flags nid t).root.cpuset = contextUnits flags t ∧
      (loadedTopo flags nid t).root.completeCpuset = knownUnits flags t := by
  cases flags with
  | noFlags => rw [loadedTopo_noFlags]; exact ⟨rfl, rfl⟩
  | noMt =>
    rw [(disableHt_spec ht).2.2.1]
    exact ⟨ht.root_disableHt, ht.complete_disableHt hcomplete⟩

theorem contextUnits_nonempty (ht : t.Machine) (flags : CreateFlags) :
    (contextUnits flags t).Nonempty := by
  have hlow : (lowestUnits t.cores ∅).Nonempty := by
    have hmeets := Finset.nonempty_iff_ne_empty.mpr ht.lowest_meets
    rwa [Finset.inter_eq_left.mpr ht.lowest_subset] at hmeets
  cases flags with
  | noFlags => exact hlow.mono ht.lowest_subset
  | noMt => exact hlow

theorem contextUnits_subset (hcomplete : t.root.cpuset ⊆ t.root.completeCpuset)
    (flags : CreateFlags) : contextUnits flags t ⊆ knownUnits flags t := by
  cases flags with
  | noFlags => exact hcomplete
  | noMt => exact Finset.Subset.refl _

end Units

variable {t : Topology} {flags : CreateFlags} {nid : Nat} {f f' : Faults} {h h₀ : QuoHwloc}
  {mask mask₀ : Cpuset} {b : Bool}

/-- What `QUO_bound` answers, whenever it does. -/
theorem notBound_iff (ht : t.Machine) (hcomplete : t.root.cpuset ⊆ t.root.completeCpuset)
    (hc : create .bundled f (loadedTopo flags nid t) mask₀ = (.ok (), h₀))
    (hr : Reached .bundled h₀ h) (hb : hwlocBound .bundled f' h mask = .ok b) :
    h.topo.root.cpuset = contextUnits flags t ∧
      (b = false ↔ contextUnits flags t ⊆ mask ∧
        ∀ pu ∈ mask, (∃ last ∈ knownUnits flags t, pu ≤ last) → pu ∈ contextUnits flags t) := by
  obtain ⟨htopo₀, hwidest₀, -⟩ := create_ok hc
  have htopo : h.topo = loadedTopo flags nid t := hr.sameTopo.topo.trans htopo₀
  have hwidest : h.widestCpuset = (loadedTopo flags nid t).root.cpuset :=
    hr.sameTopo.widest.trans hwidest₀
  obtain ⟨hunits, hknown⟩ := loadedTopo_units ht hcomplete flags nid
  have hne : (loadedTopo flags nid t).root.cpuset.Nonempty := by
    rw [hunits]
    exact contextUnits_nonempty ht flags
  have hsub : (loadedTopo flags nid t).root.cpuset ⊆
      (loadedTopo flags nid t).root.completeCpuset := by
    rw [hunits, hknown]
    exact contextUnits_subset hcomplete flags
  refine ⟨by rw [htopo, hunits], ?_⟩
  rw [hwlocBound_ok hb, hwidest, htopo]
  show _ = (loadedTopo flags nid t).cutMask mask ↔ _
  rw [cutMask_eq_iff hne hsub, hunits, hknown]

/-- On a context of either kind, after any calls and with any mask, `QUO_bound` reports
whether the mask lacks a unit of the context exactly if that is answered by what it reads
of the mask. -/
theorem bound_right_iff (ht : t.Machine) (hcomplete : t.root.cpuset ⊆ t.root.completeCpuset)
    (hc : create .bundled f (loadedTopo flags nid t) mask₀ = (.ok (), h₀))
    (hr : Reached .bundled h₀ h) (hb : hwlocBound .bundled f' h mask = .ok b) :
    (b = false ↔ h.topo.root.cpuset ⊆ mask) ↔ Answered flags t mask := by
  obtain ⟨hroot, hiff⟩ := notBound_iff ht hcomplete hc hr hb
  rw [hroot, hiff, and_iff_left_iff_imp]
  rfl

/-- Two cores of two units each, the second units numbered behind all the first. -/
def splitCores : Topology where
  root := ⟨{0, 1, 2, 3}, {0, 1, 2, 3}⟩
  numanodes := []
  packages := [⟨{0, 1, 2, 3}, {0, 1, 2, 3}⟩]
  cores := [⟨{0, 2}, {0, 2}⟩, ⟨{1, 3}, {1, 3}⟩]
  pus := [⟨{0}, {0}⟩, ⟨{2}, {2}⟩, ⟨{1}, {1}⟩, ⟨{3}, {3}⟩]

theorem splitCores_machine : splitCores.Machine where
  some := by decide
  nonempty := by decide
  disjoint := by decide
  root pu := by
    simp only [splitCores, Finset.mem_insert, Finset.mem_singleton, List.mem_cons,
      List.not_mem_nil, or_false, exists_eq_or_imp, exists_eq_left]
    omega
  pus := by
    refine ⟨[0, 2, 1, 3], by decide, fun pu => ?_, rfl⟩
    simp only [splitCores, Finset.mem_insert, Finset.mem_singleton, List.mem_cons,
      List.not_mem_nil, or_false]
    omega

/-- A process that is not bound there creates a context without hyper-threads. -/
def splitProcess : Process := .start .bundled (loadedTopo .noMt 0 splitCores) {0, 1, 2, 3}

theorem splitProcess_notBound :
    hwlocBound .bundled noFaults splitProcess.hwloc {0, 1, 2, 3} = .ok false ∧
      (false = false ↔ splitProcess.hwloc.topo.root.cpuset ⊆ {0, 1, 2, 3}) := by
  have hc : create .bundled noFaults (loadedTopo .noMt 0 splitCores) {0, 1, 2, 3} =
      (.ok (), splitProcess.hwloc) := Prod.ext (by decide +kernel) rfl
  have hb : hwlocBound .bundled noFaults splitProcess.hwloc {0, 1, 2, 3} = .ok false := by
    decide +kernel
  refine ⟨hb, (bound_right_iff splitCores_machine (by decide) hc .new hb).mpr ?_⟩
  show contextUnits .noMt splitCores ⊆ {0, 1, 2, 3} → ∀ pu ∈ ({0, 1, 2, 3} : Cpuset),
    (∃ last ∈ knownUnits .noMt splitCores, pu ≤ last) → pu ∈ contextUnits .noMt splitCores
  decide +kernel

/-- Once the hyper-threads are gone, an unbound process is reported not bound exactly if they
are numbered behind all units that stay. -/
theorem launchedUnbound_iff (ht : t.Machine) (hcomplete : t.root.cpuset ⊆ t.root.completeCpuset)
    (hc : create .bundled f (loadedTopo .noMt nid t) t.root.cpuset = (.ok (), h))
    (hb : hwlocBound .bundled f' h t.root.cpuset = .ok b) :
    b = false ↔ ∀ pu ∈ t.root.cpuset, pu ∉ lowestUnits t.cores ∅ →
      ∀ low ∈ lowestUnits t.cores ∅, low < pu := by
  rw [(notBound_iff ht hcomplete hc .new hb).2]
  constructor
  · rintro ⟨-, honly⟩ pu hpu hnot low hlow
    by_contra hle
    exact hnot (honly pu hpu ⟨low, hlow, Nat.not_lt.mp hle⟩)
  · intro hbehind
    refine ⟨ht.lowest_subset, fun pu hpu hlast => ?_⟩
    by_contra hnot
    obtain ⟨low, hlow, hle⟩ := hlast
    exact absurd (hbehind pu hpu hnot low hlow) (Nat.not_lt.mpr hle)

/-- With the siblings numbered core after core, an unbound process is reported bound, right
after it has created its context. -/
theorem wideProcess_bound :
    create .bundled noFaults (loadedTopo .noMt 0 hyperCores) {0, 1, 2, 3} =
        (.ok (), wideProcess.hwloc) ∧
      wideProcess.hwloc.topo.root.cpuset ⊆ {0, 1, 2, 3} ∧
      hwlocBound .bundled noFaults wideProcess.hwloc {0, 1, 2, 3} = .ok true :=
  ⟨Prod.ext (by decide +kernel) rfl, by decide +kernel, by decide +kernel⟩

end LibQuo.Bind
