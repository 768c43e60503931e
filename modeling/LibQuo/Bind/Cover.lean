import LibQuo.Bind.Failures
import Mathlib.Data.List.Pairwise

/-!
`QUO_BIND_PUSH_OBJ` is to push to the enclosing object of a type. The code takes the first
object of the type that shares a unit with the current binding, whether or not it
encloses it.
-/

namespace LibQuo.Bind
open CMem

/-- What `hwloc` promises of the sets of a topology. -/
structure Topology.WellFormed (t : Topology) : Prop where
  complete : t.root.cpuset ⊆ t.root.completeCpuset
  inside : ∀ type, ∀ obj ∈ t.level type, obj.cpuset ⊆ t.root.cpuset

def Topology.NoneEncloses (t : Topology) (set : Cpuset) (type : ObjType) : Prop :=
  ∀ realType, ext2intobj type = .ok realType → ∀ obj ∈ t.level realType, ¬set ⊆ obj.cpuset

/-- The first object of the type that shares a unit with the set, if there is one,
contains it. -/
def Topology.FirstEncloses (t : Topology) (set : Cpuset) (type : ObjType) : Prop :=
  ∀ realType, ext2intobj type = .ok realType →
    ∀ obj, t.nextObjCovering set realType = some obj → set ⊆ obj.cpuset

/-- A push to the enclosing object binds to one that contains the binding, and is refused
if there is none. -/
structure Attempt.Encloses (a : Attempt) (type : ObjType) (objIndex : Int32) : Prop where
  success : a.result .bundled = .ok () →
    ∃ obj, Target .bundled a.faults a.before.hwloc .obj type objIndex.toUInt32.toNat
        a.before.live obj ∧
      a.before.live ⊆ obj.cpuset ∧ a.before.live ⊆ (a.after .bundled).live
  refused : a.before.hwloc.topo.NoneEncloses a.before.live type →
    a.result .bundled ≠ .ok () ∧ (a.after .bundled).live = a.before.live

variable {t : Topology} {set mask live : Cpuset}

/-- What is stored contains what is given. -/
theorem subset_of_fixCpubind (h : t.fixCpubind set = some mask) : set ⊆ mask := by
  unfold Topology.fixCpubind at h
  split at h
  · simp at h
  · split at h
    · simp at h
    · next hsub =>
      split at h
      · rw [← Option.some.inj h]
        exact not_not.mp hsub
      · rw [← Option.some.inj h]

theorem fixCpubind_of_subset (hne : set ≠ ∅) (hsub : set ⊆ t.root.completeCpuset) :
    ∃ mask, t.fixCpubind set = some mask := by
  unfold Topology.fixCpubind
  rw [if_neg hne, if_neg (not_not.mpr hsub)]
  split
  · exact ⟨_, rfl⟩
  · exact ⟨_, rfl⟩

/-- A mask inside the topology is read as it is. -/
theorem cutMask_of_subset (hsub : live ⊆ t.root.completeCpuset) : t.cutMask live = live := by
  unfold Topology.cutMask
  split
  · next hne =>
    rw [Finset.filter_eq_self]
    intro cpu hcpu
    exact Finset.le_max' _ _ (hsub hcpu)
  · rfl

theorem nextObjCovering_some {realType : HwlocType} {obj : Obj}
    (h : t.nextObjCovering set realType = some obj) :
    obj ∈ t.level realType ∧ set ∩ obj.cpuset ≠ ∅ := by
  refine ⟨List.mem_of_find?_eq_some h, ?_⟩
  have hobj := List.find?_some h
  simpa using hobj

/-- The object that `QUO_BIND_PUSH_OBJ` takes. -/
theorem target_obj_iff {f : Faults} {h : QuoHwloc} {type : ObjType} {idx : Nat} {obj : Obj} :
    Target .bundled f h .obj type idx live obj ↔
      f .coverAlloc = false ∧ f .coverGet = false ∧ ∃ realType, ext2intobj type = .ok realType ∧
        h.topo.nextObjCovering (h.topo.cutMask live) realType = some obj := by
  have hcover : Target .bundled f h .obj type idx live obj ↔
      getObjCoveringCurBind .bundled f h type live = .ok obj := by
    simp [Target]
  rw [hcover, getObjCoveringCurBind]
  cases htype : ext2intobj type with
  | error e => simp
  | ok realType =>
    simp only [ok_bind, getCurBind]
    cases f .coverAlloc with
    | true => simp
    | false =>
      cases f .coverGet with
      | true => simp
      | false =>
        simp only [Bool.false_eq_true, ↓reduceIte, ok_bind, true_and, Except.ok.injEq,
          exists_eq_left', Hooks.bundled]
        cases h.topo.nextObjCovering (h.topo.cutMask live) realType with
        | none => simp
        | some obj => simp [pure, Except.pure]

theorem create_bundled (t : Topology) (live : Cpuset) :
    ∃ h, create .bundled noFaults t live = (.ok (), h) := by
  rcases pushCurBind_cases (h := ⟨t, t.root.cpuset, .fresh⟩) .bundled noFaults live
    BindStack.fresh_holds with ⟨-, b, -, -, heq⟩ | ⟨hnot, -⟩
  · exact ⟨_, heq⟩
  · refine absurd ⟨?_, rfl, rfl, rfl⟩ hnot
    show 0 < stackSize
    decide

/-- For every topology, binding and type: all pushes to the enclosing object do what they
are to do exactly if the first object of the type that shares a unit with the binding
contains it. -/
theorem encloses_iff {type : ObjType} (ht : t.WellFormed) (hlive : live ⊆ t.root.cpuset) :
    (∀ (a : Attempt) (objIndex : Int32), a.before.hwloc.topo = t → a.before.live = live →
        a.call = .push .obj type objIndex → (∃ saved, a.before.hwloc.bstack.Holds saved) →
        a.Encloses type objIndex) ↔
      t.FirstEncloses live type := by
  have hcut : t.cutMask live = live := cutMask_of_subset (hlive.trans ht.complete)
  constructor
  · intro h realType htype obj hobj
    obtain ⟨context, hc⟩ := create_bundled t live
    obtain ⟨htopo, -, hholds, -⟩ := create_ok hc
    let a : Attempt := ⟨⟨context, live⟩, .push .obj type 0, noFaults⟩
    have ha : a.Encloses type 0 := h a 0 htopo rfl rfl ⟨_, hholds⟩
    have htarget :
        Target .bundled noFaults context .obj type (0 : Int32).toUInt32.toNat live obj := by
      rw [target_obj_iff, htopo, hcut]
      exact ⟨rfl, rfl, realType, htype, hobj⟩
    obtain ⟨hmem, hmeet⟩ := nextObjCovering_some hobj
    obtain ⟨mask, hmask⟩ : ∃ mask, t.fixCpubind obj.cpuset = some mask := by
      refine fixCpubind_of_subset ?_ ((ht.inside _ obj hmem).trans ht.complete)
      rintro hempty
      simp [hempty] at hmeet
    have hbinds : a.Binds .bundled .obj type 0 mask := by
      refine ⟨rfl, rfl, rfl, obj, htarget, ?_⟩
      show context.topo.fixCpubind obj.cpuset = some mask
      rw [htopo, hmask]
    rcases push_cases (a := a) .bundled rfl hholds with
      ⟨-, -, -, hnone⟩ | ⟨mask', -, -, ⟨-, hok, -⟩ | ⟨hnot, -⟩⟩
    · exact absurd hbinds (hnone mask)
    · obtain ⟨obj', htarget', hsub, -⟩ := ha.success hok
      rwa [htarget.unique htarget']
    · refine absurd ⟨?_, rfl, rfl, rfl⟩ hnot
      show context.bstack.top < stackSize
      rw [hholds.top]
      show 1 < stackSize
      decide
  · rintro hfirst a objIndex rfl rfl hcall ⟨saved, hh⟩
    have htarget {mask : Cpuset} (hb : a.Binds .bundled .obj type objIndex mask) :
        ∃ obj, Target .bundled a.faults a.before.hwloc .obj type objIndex.toUInt32.toNat
            a.before.live obj ∧ a.before.live ⊆ obj.cpuset ∧ a.before.live ⊆ mask ∧
          ∃ realType, ext2intobj type = .ok realType ∧
            obj ∈ a.before.hwloc.topo.level realType := by
      obtain ⟨-, -, -, obj, hobj, hset⟩ := hb
      obtain ⟨-, -, realType, htype, hcover⟩ := target_obj_iff.mp hobj
      rw [hcut] at hcover
      have hsub := hfirst realType htype obj hcover
      exact ⟨obj, hobj, hsub, hsub.trans (subset_of_fixCpubind hset), realType, htype,
        (nextObjCovering_some hcover).1⟩
    rcases push_cases .bundled hcall hh with ⟨hfail, -, hsame, -⟩ | ⟨mask, hbinds, hmask, -⟩
    · exact ⟨fun hok => absurd hok hfail, fun _ => ⟨hfail, hsame⟩⟩
    · obtain ⟨obj, hobj, hsub, hsub', realType, htype, hmem⟩ := htarget hbinds
      exact ⟨fun _ => ⟨obj, hobj, hsub, hmask ▸ hsub'⟩,
        fun hnone => absurd hsub (hnone realType htype obj hmem)⟩

theorem twoCores_wellFormed : twoCores.WellFormed where
  complete := by decide
  inside := by
    intro type
    cases type <;> decide

/-- Pushes to the socket of a process that is bound to both of its cores. -/
theorem socketPush_encloses : twoCores.FirstEncloses {0, 1} .socket ∧
    ∀ (a : Attempt) (objIndex : Int32), a.before.hwloc.topo = twoCores → a.before.live = {0, 1} →
      a.call = .push .obj .socket objIndex → (∃ saved, a.before.hwloc.bstack.Holds saved) →
      a.Encloses .socket objIndex := by
  have hfirst : twoCores.FirstEncloses {0, 1} .socket := by
    intro realType htype obj hobj
    obtain rfl := Except.ok.inj htype
    have hmem := (nextObjCovering_some hobj).1
    obtain rfl : obj = ⟨{0, 1}, {0, 1}⟩ := List.mem_singleton.mp hmem
    decide
  exact ⟨hfirst, (encloses_iff twoCores_wellFormed (by decide)).mpr hfirst⟩

/-- Where the objects of a type share no unit, the first one contains the binding if any
object does, or if none shares a unit with it. -/
theorem firstEncloses_iff {type : ObjType} {realType : HwlocType}
    (htype : ext2intobj type = .ok realType)
    (hdisj : (t.level realType).Pairwise fun x y => Disjoint x.cpuset y.cpuset) :
    t.FirstEncloses live type ↔ (∃ obj ∈ t.level realType, live ⊆ obj.cpuset) ∨
      ∀ obj ∈ t.level realType, Disjoint live obj.cpuset := by
  have hsymm : Std.Symm fun x y : Obj => Disjoint x.cpuset y.cpuset := ⟨fun _ _ h => h.symm⟩
  constructor
  · intro hfirst
    cases hcover : t.nextObjCovering live realType with
    | none =>
      refine .inr fun obj hobj => ?_
      have hnot := List.find?_eq_none.mp hcover obj hobj
      rw [Finset.disjoint_iff_inter_eq_empty]
      simpa using hnot
    | some obj =>
      exact .inl ⟨obj, (nextObjCovering_some hcover).1, hfirst realType htype obj hcover⟩
  · intro h realType' htype' first hcover
    obtain rfl : realType' = realType := Except.ok.inj (htype'.symm.trans htype)
    obtain ⟨hmem, hmeet⟩ := nextObjCovering_some hcover
    rcases h with ⟨obj, hobj, hsub⟩ | hnone
    · by_cases heq : obj.cpuset = first.cpuset
      · rwa [← heq]
      · have hdis : Disjoint obj.cpuset first.cpuset :=
          hdisj.forall hobj hmem fun h => heq (congrArg Obj.cpuset h)
        refine absurd (Finset.disjoint_iff_inter_eq_empty.mp ?_) hmeet
        exact hdis.mono_left hsub
    · exact absurd (Finset.disjoint_iff_inter_eq_empty.mp (hnone first hmem)) hmeet

/-- A process that is bound to two cores pushes to the enclosing core. -/
def corePush : Attempt := ⟨newProcess, .push .obj .core (-1), noFaults⟩

/-- No core encloses the binding; the push succeeds, and the process is bound to the first
of the two. -/
theorem corePush_shrinks :
    twoCores.NoneEncloses corePush.before.live .core ∧
      corePush.result .bundled = .ok () ∧ (corePush.after .bundled).live = {0} ∧
      ¬corePush.Encloses .core (-1) := by
  have hok : corePush.result .bundled = .ok () := by decide +kernel
  have hlive : (corePush.after .bundled).live = {0} := by decide +kernel
  have hnone : twoCores.NoneEncloses corePush.before.live .core := by
    intro realType htype
    obtain rfl := Except.ok.inj htype
    decide
  exact ⟨hnone, hok, hlive, fun hen => (hen.refused hnone).1 hok⟩

end LibQuo.Bind
