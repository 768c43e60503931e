import LibQuo.Bind.Topology
import LibQuo.Bitmap.Search

/-!
Runs of calls on bitmaps, in which a bitmap may be an argument and the result at once, and
the loop of `topo_disable_ht` over them.
-/

namespace LibQuo.Bitmap
open WordSet

/-- The calls that write bitmaps, which are named by `ι`. -/
inductive Op (ι : Type)
  | zero (set : ι)
  | fill (set : ι)
  | copy (dst src : ι)
  | or (res set1 set2 : ι)
  | and (res set1 set2 : ι)
  | andnot (res set1 set2 : ι)
  | set (set : ι) (cpu : UInt32)
  | setRange (set : ι) (begincpu : UInt32) (endcpu : Int32)
  | singlify (set : ι)

variable {ι : Type} [DecidableEq ι] {mem : Bool}

/-- What a call leaves, unless it reports a failure. -/
def Op.exec (mem : Bool) (env : ι → Bitmap) : Op ι → Option (ι → Bitmap)
  | .zero v => some (Function.update env v (env v).zero)
  | .fill v => some (Function.update env v (env v).fill)
  | .copy v a => ((env v).copy mem (env a)).map (Function.update env v)
  | .or v a b => (Bitmap.or mem (env v) (env a) (env b)).map (Function.update env v)
  | .and v a b => (Bitmap.and mem (env v) (env a) (env b)).map (Function.update env v)
  | .andnot v a b => (Bitmap.andnot mem (env v) (env a) (env b)).map (Function.update env v)
  | .set v cpu => ((env v).set mem cpu).map (Function.update env v)
  | .setRange v b e => ((env v).setRange mem b e).map (Function.update env v)
  | .singlify v =>
    let r := (env v).singlify mem
    if r.1 then some (Function.update env v r.2) else none

/-- A run of calls, each with memory or without, none of which reports a failure. -/
def run (ops : List (Bool × Op ι)) (env : ι → Bitmap) : Option (ι → Bitmap) :=
  ops.foldlM (fun env op => op.2.exec op.1 env) env

/-- What the call means for sets. -/
def Op.apply (sets : ι → Set Nat) : Op ι → ι → Set Nat
  | .zero v => Function.update sets v ∅
  | .fill v => Function.update sets v Set.univ
  | .copy v a => Function.update sets v (sets a)
  | .or v a b => Function.update sets v (sets a ∪ sets b)
  | .and v a b => Function.update sets v (sets a ∩ sets b)
  | .andnot v a b => Function.update sets v (sets a \ sets b)
  | .set v cpu => Function.update sets v (insert cpu.toNat (sets v))
  | .setRange v b e => Function.update sets v (sets v ∪ range b e)
  | .singlify v => Function.update sets v {x | IsLeast (sets v) x}

/-- The numbers that a call stores are such that one more word still has `int` numbers, and
no full bitmap has to be enlarged to keep its lowest number. -/
def Op.Ready (sets : ι → Set Nat) : Op ι → Prop
  | .set _ cpu => cpu.toNat < 2 ^ 31 - 64
  | .setRange _ b e => b.toNat < 2 ^ 31 - 64 ∧ (e = -1 ∨ e.toUInt32.toNat < 2 ^ 31 - 64)
  | .singlify v => BddAbove (sets v)
  | _ => True

def AllReady (sets : ι → Set Nat) : List (Op ι) → Prop
  | [] => True
  | op :: ops => op.Ready sets ∧ AllReady (op.apply sets) ops

section Fits

variable {s t r : Bitmap}

theorem copy_fits (h : r.copy mem s = some t) (hs : s.Fits) : t.Fits := by
  obtain ⟨hulongs, -⟩ := reset_eq_some h
  rw [Fits, hulongs]
  exact hs

theorem modify_length (f : Nat → Ulong → Ulong) : (s.modify f).ulongs.length = s.ulongs.length :=
  List.length_mapIdx

theorem set_fits {cpu : UInt32} (h : s.set mem cpu = some t) (hs : s.Fits)
    (hcpu : cpu.toNat < 2 ^ 31 - 64) : t.Fits := by
  unfold Fits at hs
  simp only [set] at h
  split at h
  · obtain rfl := Option.some.inj h
    exact hs
  · obtain ⟨s', hs', ht⟩ := Option.bind_eq_some_iff.mp h
    obtain rfl := Option.some.inj ht
    obtain ⟨hlen, -⟩ := realloc_eq_some hs'
    rw [Fits, modify_length]
    omega

theorem setRange_fits {begincpu : UInt32} {endcpu : Int32}
    (h : s.setRange mem begincpu endcpu = some t) (hs : s.Fits)
    (hbegin : begincpu.toNat < 2 ^ 31 - 64)
    (hend : endcpu = -1 ∨ endcpu.toUInt32.toNat < 2 ^ 31 - 64) : t.Fits := by
  unfold Fits at hs
  simp only [setRange] at h
  split at h
  · exact Option.some.inj h ▸ hs
  · split at h
    · exact Option.some.inj h ▸ hs
    · split at h
      case isTrue =>
        obtain ⟨s', hs', ht⟩ := Option.bind_eq_some_iff.mp h
        obtain rfl := Option.some.inj ht
        obtain ⟨hlen, -⟩ := realloc_eq_some hs'
        have hsame : (s'.setFrom begincpu.toNat).ulongs.length = s'.ulongs.length :=
          modify_length _
        rw [Fits, hsame]
        omega
      case isFalse hne =>
        obtain ⟨s', hs', ht⟩ := Option.bind_eq_some_iff.mp h
        obtain rfl := Option.some.inj ht
        obtain ⟨hlen, -⟩ := realloc_eq_some hs'
        have hlast := hend.resolve_left hne
        rw [Fits, modify_length, hlen]
        split
        · omega
        · omega

theorem singlify_fits (h : s.singlify mem = (true, t)) (hs : s.Fits)
    (hinf : s.infinite = false) : t.Fits := by
  simp only [singlify] at h
  rw [if_neg (by simp [hinf])] at h
  obtain rfl := (Prod.mk.inj h).2
  rw [Fits, singlifyWords_length]
  exact hs

end Fits

structure Represents (env : ι → Bitmap) (sets : ι → Set Nat) : Prop where
  fits : ∀ v, (env v).Fits
  cpus : ∀ v, (env v).cpus = sets v

variable {env env' : ι → Bitmap} {sets : ι → Set Nat}

theorem Represents.update (h : Represents env sets) (v : ι) {t : Bitmap} {A : Set Nat}
    (ht : t.Fits) (hA : t.cpus = A) :
    Represents (Function.update env v t) (Function.update sets v A) := by
  constructor
  · intro u
    by_cases hu : u = v
    · subst hu
      rwa [Function.update_self]
    · rw [Function.update_of_ne hu]
      exact h.fits u
  · intro u
    by_cases hu : u = v
    · subst hu
      rwa [Function.update_self, Function.update_self]
    · rw [Function.update_of_ne hu, Function.update_of_ne hu]
      exact h.cpus u

theorem one_fits {t : Bitmap} (h : t.ulongs.length = 1) : t.Fits := by
  rw [Fits, h]
  decide

/-- A call does to the bitmaps what it means for the sets. -/
theorem Op.exec_represents {op : Op ι} (hready : op.Ready sets) (h : Represents env sets)
    (hexec : op.exec mem env = some env') : Represents env' (op.apply sets) := by
  cases op with
  | zero v =>
    obtain rfl := Option.some.inj hexec
    exact h.update v (one_fits rfl) (cpus_zero _)
  | fill v =>
    obtain rfl := Option.some.inj hexec
    exact h.update v (one_fits rfl) (cpus_fill _)
  | copy v a =>
    obtain ⟨t, ht, rfl⟩ := Option.map_eq_some_iff.mp hexec
    exact h.update v (copy_fits ht (h.fits a)) (by rw [cpus_copy ht, h.cpus])
  | or v a b =>
    obtain ⟨t, ht, rfl⟩ := Option.map_eq_some_iff.mp hexec
    exact h.update v (combineInto_fits ht (h.fits a) (h.fits b))
      (by rw [cpus_or ht, h.cpus, h.cpus])
  | and v a b =>
    obtain ⟨t, ht, rfl⟩ := Option.map_eq_some_iff.mp hexec
    exact h.update v (combineInto_fits ht (h.fits a) (h.fits b))
      (by rw [cpus_and ht, h.cpus, h.cpus])
  | andnot v a b =>
    obtain ⟨t, ht, rfl⟩ := Option.map_eq_some_iff.mp hexec
    exact h.update v (combineInto_fits ht (h.fits a) (h.fits b))
      (by rw [cpus_andnot ht, h.cpus, h.cpus])
  | set v cpu =>
    obtain ⟨t, ht, rfl⟩ := Option.map_eq_some_iff.mp hexec
    exact h.update v (set_fits ht (h.fits v) hready) (by rw [cpus_set ht, h.cpus])
  | setRange v b e =>
    obtain ⟨t, ht, rfl⟩ := Option.map_eq_some_iff.mp hexec
    exact h.update v (setRange_fits ht (h.fits v) hready.1 hready.2)
      (by rw [cpus_setRange ht, h.cpus])
  | singlify v =>
    simp only [exec] at hexec
    split at hexec
    case isTrue hok =>
      obtain rfl := Option.some.inj hexec
      have ht : (env v).singlify mem = (true, ((env v).singlify mem).2) := Prod.ext hok rfl
      have hinf : (env v).infinite = false := bddAbove_cpus_iff.mp (by rw [h.cpus]; exact hready)
      exact h.update v (singlify_fits ht (h.fits v) hinf)
        (by rw [cpus_singlify (h.fits v) ht, h.cpus])
    case isFalse => simp at hexec

/-- **Set algebra.** After any run of calls in which none has reported a failure, every
bitmap holds the set that the calls mean, and every query says what is so of it. -/
theorem run_represents {ops : List (Bool × Op ι)} (hready : AllReady sets (ops.map Prod.snd))
    (h : Represents env sets) (hrun : run ops env = some env') :
    Represents env' (ops.foldl (fun sets op => op.2.apply sets) sets) ∧
      ∀ u v, QueriesExact (env' u) (env' v) := by
  have hrep : Represents env' (ops.foldl (fun sets op => op.2.apply sets) sets) := by
    induction ops generalizing env sets with
    | nil => exact Option.some.inj hrun ▸ h
    | cons op ops ih =>
      obtain ⟨env₁, hexec, hrest⟩ := Option.bind_eq_some_iff.mp hrun
      exact ih hready.2 (Op.exec_represents hready.1 h hexec) hrest
  exact ⟨hrep, fun u v => queriesExact (hrep.fits u) (env' v)⟩

/-- Two bitmaps: one gets the numbers from 100 on, with `{3}` of the other one added. -/
def addOps : List (Bool × Op Bool) :=
  [(true, .set false 3), (true, .setRange true 100 (-1)), (true, .or true true false),
    (true, .singlify false)]

theorem addOps_ready : AllReady (fun _ => ∅) (addOps.map Prod.snd) := by
  have h₃ : (3 : UInt32).toNat < 2 ^ 31 - 64 := by decide
  have h₁₀₀ : (100 : UInt32).toNat < 2 ^ 31 - 64 := by decide
  refine ⟨h₃, ⟨h₁₀₀, .inl rfl⟩, trivial, ⟨3, fun x hx => ?_⟩, trivial⟩
  obtain rfl | hx := hx
  · exact le_rfl
  · exact hx.elim

theorem addOps_represents : ∃ env', run addOps (fun _ => alloc) = some env' ∧
    Represents env' (addOps.foldl (fun sets op => op.2.apply sets) fun _ => ∅) ∧
    ∀ u v, QueriesExact (env' u) (env' v) := by
  have halloc : Represents (fun _ : Bool => alloc) fun _ => ∅ :=
    ⟨fun _ => one_fits rfl, fun _ => cpus_alloc⟩
  have hsome : (run addOps fun _ => alloc).isSome := by decide +kernel
  obtain ⟨env', hrun⟩ := Option.isSome_iff_exists.mp hsome
  exact ⟨env', hrun, run_represents addOps_ready halloc hrun⟩

/-! ## Hyper-threads -/

/-- A turn of the loop of `topo_disable_ht`. -/
def nohtStep (mem : Bool) (noht core : Bitmap) : Option Bitmap := do
  let coreCpuset ← core.dup mem
  let singlified := coreCpuset.singlify mem
  Bitmap.or mem noht noht singlified.2

/-- The loop over the cpusets of the cores. -/
def nohtCpuset (mem : Bool) (cores : List Bitmap) : Option Bitmap :=
  cores.foldlM (nohtStep mem) alloc.zero

structure Denotes (s : Bitmap) (set : Bind.Cpuset) : Prop where
  fits : s.Fits
  cpus : s.cpus = ↑set

section Denotes

variable {s t noht : Bitmap} {set : Bind.Cpuset}

theorem Denotes.finite (h : s.Denotes set) : s.infinite = false := by
  rw [← bddAbove_cpus_iff, h.cpus]
  exact ⟨set.sup id, fun x hx => Finset.le_sup (f := id) hx⟩

theorem alloc_denotes : alloc.zero.Denotes ∅ :=
  ⟨one_fits rfl, by rw [cpus_zero, Finset.coe_empty]⟩

theorem Denotes.singlify (h : s.Denotes set) (mem : Bool) :
    (s.singlify mem).2.Denotes (Bind.singlify set) := by
  have hok : s.singlify mem = (true, (s.singlify mem).2) := by
    refine Prod.ext ?_ rfl
    simp only [Bitmap.singlify]
    rw [if_neg (by simp [h.finite])]
  refine ⟨singlify_fits hok h.fits h.finite, ?_⟩
  rw [cpus_singlify h.fits hok, h.cpus, Bind.singlify]
  split
  case isTrue hne =>
    rw [eq_singleton_of_isLeast (set.isLeast_min' hne), Finset.coe_singleton]
  case isFalse hempty =>
    rw [Finset.not_nonempty_iff_eq_empty.mp hempty, Finset.coe_empty]
    exact Set.eq_empty_iff_forall_notMem.mpr fun x hx => hx.1

theorem Denotes.or {a b r : Bitmap} {set' : Bind.Cpuset} (ha : a.Denotes set)
    (hb : b.Denotes set') (h : Bitmap.or mem r a b = some t) : t.Denotes (set ∪ set') :=
  ⟨combineInto_fits h ha.fits hb.fits, by rw [cpus_or h, ha.cpus, hb.cpus, Finset.coe_union]⟩

theorem nohtStep_denotes {core : Bitmap} {obj : Bind.Obj} (hnoht : noht.Denotes set)
    (hcore : core.Denotes obj.cpuset) (h : nohtStep mem noht core = some t) :
    t.Denotes (set ∪ Bind.singlify obj.cpuset) := by
  obtain ⟨core', hdup, hor⟩ := Option.bind_eq_some_iff.mp h
  obtain rfl : core = core' := by
    rw [dup] at hdup
    split at hdup
    · exact Option.some.inj hdup
    · simp at hdup
  exact hnoht.or (hcore.singlify mem) hor

theorem foldlM_nohtStep_denotes {cores : List Bitmap} {objs : List Bind.Obj}
    (hcores : List.Forall₂ (fun core obj => core.Denotes obj.cpuset) cores objs)
    (hnoht : noht.Denotes set) (h : cores.foldlM (nohtStep mem) noht = some t) :
    t.Denotes (objs.foldl (fun set core => set ∪ Bind.singlify core.cpuset) set) := by
  induction hcores generalizing noht set with
  | nil => exact Option.some.inj h ▸ hnoht
  | cons hcore _ ih =>
    obtain ⟨noht', hstep, hrest⟩ := Option.bind_eq_some_iff.mp h
    exact ih (nohtStep_denotes hnoht hcore hstep) hrest

/-- **Hyper-threads, word by word.** The words that the loop of `topo_disable_ht` has
computed are those of the set that the topology is restricted to. -/
theorem topoDisableHt_words {topo : Bind.Topology} {cores : List Bitmap}
    (hcores : List.Forall₂ (fun core obj => core.Denotes obj.cpuset) cores
      (topo.objsInside topo.root.cpuset .core)) (h : nohtCpuset mem cores = some noht) :
    ∃ set, noht.Denotes set ∧ Bind.topoDisableHt topo = topo.restrict set :=
  ⟨_, foldlM_nohtStep_denotes hcores alloc_denotes h, rfl⟩

end Denotes

end LibQuo.Bitmap
