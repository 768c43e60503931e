import Mathlib.Data.Set.Lattice
import Mathlib.Order.Bounds.Basic
import Mathlib.Order.Interval.Set.Defs
import LibQuo.Bitmap.Words

/-!
The bitmaps as sets of numbers: what each function of `bitmap.c` does to the sets, and what
a run of such calls does, in which a bitmap may be an argument and the result at once.
-/

namespace LibQuo.Bitmap
open WordSet

def cpus (s : Bitmap) : Set Nat := {x | bit s.readulong x = true}

/-- All numbers that a search may return are `int`s. -/
def Fits (s : Bitmap) : Prop := s.ulongs.length < 2 ^ 25

variable {mem : Bool} {s t r : Bitmap} {x : Nat}

theorem mem_cpus : x ∈ s.cpus ↔ bit s.readulong x = true := Iff.rfl

theorem mem_cpus_place {i k : Nat} (hk : k < 64) :
    64 * i + k ∈ s.cpus ↔ (s.readulong i).getLsbD k = true := by
  rw [mem_cpus, bit_mul_add hk]

theorem cpus_eq_iff : s.cpus = t.cpus ↔ ∀ i, s.readulong i = t.readulong i := by
  rw [← word_ext_iff, Set.ext_iff]
  exact forall_congr' fun x => Bool.eq_iff_iff.symm

/-- Behind its words a bitmap is full or empty. -/
theorem mem_cpus_of_le (h : 64 * s.ulongs.length ≤ x) : x ∈ s.cpus ↔ s.infinite = true := by
  rw [mem_cpus]
  exact Eq.congr_left (mem_of_le (by decide) h)

/-- One word that is like all behind it. -/
theorem mem_cpus_tail (h : s.ulongs = [tailWord s.infinite]) (x : Nat) :
    x ∈ s.cpus ↔ s.infinite = true := by
  have hword : s.readulong (x / 64) = tailWord s.infinite := by
    rw [readulong, word, h, List.getElem?_singleton]
    split
    · rfl
    · rfl
  rw [mem_cpus, bit, hword, getLsbD_tailWord _ (Nat.mod_lt x (by decide))]

theorem cpus_alloc : alloc.cpus = ∅ := by
  rw [Set.eq_empty_iff_forall_notMem]
  intro x hx
  exact absurd ((mem_cpus_tail rfl x).mp hx) (by decide)

theorem cpus_zero (s : Bitmap) : s.zero.cpus = ∅ := cpus_alloc

theorem cpus_fill (s : Bitmap) : s.fill.cpus = Set.univ := by
  rw [Set.eq_univ_iff_forall]
  intro x
  exact (mem_cpus_tail rfl x).mpr rfl

/-! ## What is written -/

theorem reset_eq_some {neededCount : Nat} {ulongs : List Ulong} {infinite : Bool}
    {hpos : 0 < ulongs.length} {hle : ulongs.length ≤ neededCount}
    {hbound : neededCount ≤ 2 ^ 31}
    (h : s.reset mem neededCount ulongs infinite hpos hle hbound = some t) :
    t.ulongs = ulongs ∧ t.infinite = infinite := by
  unfold reset at h
  split at h
  · simp at h
  · obtain rfl := Option.some.inj h
    exact ⟨rfl, rfl⟩

/-- A copy is the same set. -/
theorem cpus_copy (h : r.copy mem s = some t) : t.cpus = s.cpus := by
  obtain ⟨hulongs, hinf⟩ := reset_eq_some h
  rw [cpus, cpus]
  unfold readulong
  rw [hulongs, hinf]

theorem readulong_combineInto {op : Ulong → Ulong → Ulong}
    {rest1 rest2 : Option (Ulong → Ulong)} {infinite : Bool} {set1 set2 : Bitmap}
    (hext : Extends op set1.infinite set2.infinite infinite rest1 rest2)
    (h : combineInto mem r set1 set2 op rest1 rest2 infinite = some t) (i : Nat) :
    t.readulong i = op (set1.readulong i) (set2.readulong i) := by
  obtain ⟨hulongs, hinf⟩ := reset_eq_some h
  rw [readulong, hulongs, hinf]
  exact word_combine hext i

theorem combineInto_fits {op : Ulong → Ulong → Ulong} {rest1 rest2 : Option (Ulong → Ulong)}
    {infinite : Bool} {set1 set2 : Bitmap}
    (h : combineInto mem r set1 set2 op rest1 rest2 infinite = some t) (h₁ : set1.Fits)
    (h₂ : set2.Fits) : t.Fits := by
  obtain ⟨hulongs, -⟩ := reset_eq_some h
  rw [Fits, hulongs]
  exact combine_length_le.trans_lt (Nat.max_lt.mpr ⟨h₁, h₂⟩)

theorem cpus_or {set1 set2 : Bitmap} (h : or mem r set1 set2 = some t) :
    t.cpus = set1.cpus ∪ set2.cpus := by
  have hext : Extends (fun x y : Ulong => x ||| y) set1.infinite set2.infinite
      (set1.infinite || set2.infinite) (if set2.infinite then none else some id)
      (if set1.infinite then none else some id) := by
    cases h₁ : set1.infinite <;> cases h₂ : set2.infinite <;> constructor <;>
      simp [-BitVec.reduceAllOnes, tailWord]
  ext x
  rw [mem_cpus, Set.mem_union, mem_cpus, mem_cpus, bit, readulong_combineInto hext h,
    BitVec.getLsbD_or, Bool.or_eq_true]
  rfl

theorem cpus_and {set1 set2 : Bitmap} (h : and mem r set1 set2 = some t) :
    t.cpus = set1.cpus ∩ set2.cpus := by
  have hext : Extends (fun x y : Ulong => x &&& y) set1.infinite set2.infinite
      (set1.infinite && set2.infinite) (if set2.infinite then some id else none)
      (if set1.infinite then some id else none) := by
    cases h₁ : set1.infinite <;> cases h₂ : set2.infinite <;> constructor <;>
      simp [-BitVec.reduceAllOnes, tailWord]
  ext x
  rw [mem_cpus, Set.mem_inter_iff, mem_cpus, mem_cpus, bit, readulong_combineInto hext h,
    BitVec.getLsbD_and, Bool.and_eq_true]
  rfl

theorem cpus_andnot {set1 set2 : Bitmap} (h : andnot mem r set1 set2 = some t) :
    t.cpus = set1.cpus \ set2.cpus := by
  have hext : Extends (fun x y : Ulong => x &&& ~~~y) set1.infinite set2.infinite
      (set1.infinite && !set2.infinite) (if set2.infinite then none else some id)
      (if set1.infinite then some fun y => ~~~y else none) := by
    cases h₁ : set1.infinite <;> cases h₂ : set2.infinite <;> constructor <;>
      simp [-BitVec.reduceAllOnes, tailWord]
  ext x
  have hk : x % 64 < 64 := Nat.mod_lt x (by decide)
  rw [mem_cpus, Set.mem_sdiff, mem_cpus, mem_cpus, bit, readulong_combineInto hext h,
    BitVec.getLsbD_and, BitVec.getLsbD_not, Bool.and_eq_true, bit, bit]
  simp [hk]

/-! ## What is changed in place -/

theorem readulong_modify {f : Nat → Ulong → Ulong} {i : Nat} :
    (s.modify f).readulong i =
      if i < s.ulongs.length then f i (s.readulong i) else s.readulong i := by
  unfold readulong word modify
  rw [List.getElem?_mapIdx]
  split
  case isTrue h => simp [h]
  case isFalse h => simp [List.getElem?_eq_none (Nat.not_lt.mp h)]

/-- A bitmap that is enlarged is the same set. -/
theorem realloc_eq_some {neededCount : Nat} {hbound : neededCount ≤ 2 ^ 31}
    (h : s.reallocByUlongs mem neededCount hbound = some t) :
    t.ulongs.length = max neededCount s.ulongs.length ∧ t.infinite = s.infinite ∧
      ∀ i, t.readulong i = s.readulong i := by
  unfold reallocByUlongs at h
  split at h
  case isTrue hle =>
    obtain rfl := Option.some.inj h
    exact ⟨(Nat.max_eq_right hle).symm, rfl, fun _ => rfl⟩
  case isFalse hlt =>
    obtain ⟨hulongs, hinf⟩ := reset_eq_some h
    refine ⟨?_, hinf, fun i => ?_⟩
    · rw [hulongs, List.length_append, List.length_replicate]
      omega
    · rw [readulong, hulongs, hinf]
      by_cases hi : i < s.ulongs.length
      · rw [word_append_of_lt hi, readulong, word_of_lt hi]
      · have hi' := Nat.not_lt.mp hi
        rw [word_append_of_le hi', readulong, word_of_le hi', word, List.getElem?_replicate]
        split
        · rfl
        · rfl

theorem getLsbD_subbitmapCpu {cpu k : Nat} (hk : k < 64) :
    (subbitmapCpu cpu).getLsbD k = decide (k = cpu % 64) := by
  rw [subbitmapCpu, BitVec.getLsbD_shiftLeft, BitVec.getLsbD_one, Bool.eq_iff_iff]
  simp [hk]
  omega

theorem getLsbD_ulbitTo {b k : Nat} (hb : b < 64) : (ulbitTo b).getLsbD k = decide (k ≤ b) := by
  rw [ulbitTo, BitVec.getLsbD_ushiftRight, BitVec.getLsbD_allOnes]
  congr 1
  apply propext
  omega

theorem getLsbD_ulbitFrom {b k : Nat} (hk : k < 64) :
    (ulbitFrom b).getLsbD k = decide (b ≤ k) := by
  rw [ulbitFrom, BitVec.getLsbD_shiftLeft, BitVec.getLsbD_allOnes, Bool.eq_iff_iff]
  simp [hk]
  omega

/-- Word by word changes, seen bit by bit. -/
theorem mem_cpus_modify {f : Nat → Ulong → Ulong} {Q : Nat → Prop}
    (hf : ∀ i k (v : Ulong), k < 64 →
      ((f i v).getLsbD k = true ↔ v.getLsbD k = true ∨ Q (64 * i + k)))
    (hQ : ∀ y, Q y → y < 64 * s.ulongs.length) :
    x ∈ (s.modify f).cpus ↔ x ∈ s.cpus ∨ Q x := by
  obtain ⟨i, k, hk, rfl⟩ := exists_place (w := 64) (by decide) x
  rw [mem_cpus_place hk, mem_cpus_place hk, readulong_modify]
  split
  case isTrue => exact hf i k _ hk
  case isFalse hi =>
    refine ⟨.inl, fun h => h.resolve_right fun hq => ?_⟩
    have hlt := hQ _ hq
    omega

theorem cpus_set {cpu : UInt32} (h : s.set mem cpu = some t) :
    t.cpus = insert cpu.toNat s.cpus := by
  simp only [set] at h
  split at h
  case isTrue hfull =>
    obtain rfl := Option.some.inj h
    have hin : cpu.toNat ∈ s.cpus := (mem_cpus_of_le (by omega)).mpr hfull.1
    exact (Set.insert_eq_of_mem hin).symm
  case isFalse =>
    obtain ⟨s', hs', ht⟩ := Option.bind_eq_some_iff.mp h
    obtain rfl := Option.some.inj ht
    obtain ⟨hlen, -, hread⟩ := realloc_eq_some hs'
    ext x
    rw [mem_cpus_modify (Q := fun x => x = cpu.toNat) (fun i k v hk => ?_) fun y hy => by omega,
      cpus_eq_iff.mpr hread, Set.mem_insert_iff, or_comm]
    split
    case isTrue hi =>
      rw [BitVec.getLsbD_or, Bool.or_eq_true, getLsbD_subbitmapCpu hk, decide_eq_true_iff]
      have hplace : k = cpu.toNat % 64 ↔ 64 * i + k = cpu.toNat := by omega
      rw [hplace]
    case isFalse hi =>
      have hplace : ¬64 * i + k = cpu.toNat := by omega
      rw [or_iff_left hplace]

theorem setFromWord_iff {begincpu i k : Nat} (v : Ulong) (hk : k < 64) :
    (setFromWord begincpu i v).getLsbD k = true ↔
      v.getLsbD k = true ∨ begincpu ≤ 64 * i + k := by
  unfold setFromWord
  split
  case isTrue hi =>
    rw [BitVec.getLsbD_or, Bool.or_eq_true, getLsbD_ulbitFrom hk, decide_eq_true_iff]
    have hplace : begincpu % 64 ≤ k ↔ begincpu ≤ 64 * i + k := by omega
    rw [hplace]
  case isFalse hi =>
    split
    case isTrue hlt =>
      have hplace : begincpu ≤ 64 * i + k := by omega
      rw [BitVec.getLsbD_allOnes, decide_eq_true_iff]
      exact iff_of_true hk (.inr hplace)
    case isFalse hle =>
      have hplace : ¬begincpu ≤ 64 * i + k := by omega
      rw [or_iff_left hplace]

theorem setRangeWord_iff {begincpu endcpu i k : Nat} (v : Ulong) (hle : begincpu ≤ endcpu)
    (hk : k < 64) : (setRangeWord begincpu endcpu i v).getLsbD k = true ↔
      v.getLsbD k = true ∨ begincpu ≤ 64 * i + k ∧ 64 * i + k ≤ endcpu := by
  have hmod : endcpu % 64 < 64 := Nat.mod_lt _ (by decide)
  simp only [setRangeWord]
  split
  case isTrue hsame =>
    split
    case isTrue hi =>
      rw [BitVec.getLsbD_or, Bool.or_eq_true, BitVec.getLsbD_and, Bool.and_eq_true,
        getLsbD_ulbitTo hmod, getLsbD_ulbitFrom hk, decide_eq_true_iff, decide_eq_true_iff]
      have hplace : k ≤ endcpu % 64 ∧ begincpu % 64 ≤ k ↔
          begincpu ≤ 64 * i + k ∧ 64 * i + k ≤ endcpu := by omega
      rw [hplace]
    case isFalse hi =>
      have hplace : ¬(begincpu ≤ 64 * i + k ∧ 64 * i + k ≤ endcpu) := by omega
      rw [or_iff_left hplace]
  case isFalse hdiff =>
    split
    case isTrue hi =>
      rw [BitVec.getLsbD_or, Bool.or_eq_true, getLsbD_ulbitFrom hk, decide_eq_true_iff]
      have hplace : begincpu % 64 ≤ k ↔ begincpu ≤ 64 * i + k ∧ 64 * i + k ≤ endcpu := by omega
      rw [hplace]
    case isFalse hi =>
      split
      case isTrue hj =>
        rw [BitVec.getLsbD_or, Bool.or_eq_true, getLsbD_ulbitTo hmod, decide_eq_true_iff]
        have hplace : k ≤ endcpu % 64 ↔ begincpu ≤ 64 * i + k ∧ 64 * i + k ≤ endcpu := by omega
        rw [hplace]
      case isFalse hj =>
        split
        case isTrue hmid =>
          have hplace : begincpu ≤ 64 * i + k ∧ 64 * i + k ≤ endcpu := by omega
          rw [BitVec.getLsbD_allOnes, decide_eq_true_iff]
          exact iff_of_true hk (.inr hplace)
        case isFalse hout =>
          have hplace : ¬(begincpu ≤ 64 * i + k ∧ 64 * i + k ≤ endcpu) := by omega
          rw [or_iff_left hplace]

theorem cpus_setFrom {begincpu : Nat} (hlt : begincpu < 64 * s.ulongs.length) :
    (s.setFrom begincpu).cpus = s.cpus ∪ Set.Ici begincpu := by
  have hlen : (s.setFrom begincpu).ulongs.length = s.ulongs.length := List.length_mapIdx
  ext x
  rw [Set.mem_union, Set.mem_Ici]
  by_cases hx : x < 64 * s.ulongs.length
  · obtain ⟨i, k, hk, rfl⟩ := exists_place (w := 64) (by decide) x
    have hi : i < s.ulongs.length := by omega
    have hword : (s.setFrom begincpu).readulong i = setFromWord begincpu i (s.readulong i) := by
      rw [readulong, word_of_lt (hlen ▸ hi), readulong, word_of_lt hi]
      exact List.getElem_mapIdx
    rw [mem_cpus_place hk, mem_cpus_place hk, hword, setFromWord_iff _ hk]
  · have hx' := Nat.not_lt.mp hx
    exact iff_of_true ((mem_cpus_of_le (hlen ▸ hx')).mpr rfl) (.inr (hlt.le.trans hx'))

theorem cpus_setWithin {begincpu last : Nat} (hle : begincpu ≤ last)
    (hlt : last < 64 * s.ulongs.length) :
    (s.modify (setRangeWord begincpu last)).cpus = s.cpus ∪ Set.Icc begincpu last := by
  ext x
  exact mem_cpus_modify (Q := (· ∈ Set.Icc begincpu last))
    (fun i k v hk => setRangeWord_iff v hle hk) fun y hy => hy.2.trans_lt hlt

/-- The numbers of a range; one that ends at `-1` does not end. -/
def range (begincpu : UInt32) (endcpu : Int32) : Set Nat :=
  if endcpu = -1 then Set.Ici begincpu.toNat
  else Set.Icc begincpu.toNat endcpu.toUInt32.toNat

theorem range_subset_Ici (begincpu : UInt32) (endcpu : Int32) :
    range begincpu endcpu ⊆ Set.Ici begincpu.toNat := by
  unfold range
  split
  · exact subset_rfl
  · exact Set.Icc_subset_Ici_self

/-- A range behind the words of a full bitmap. -/
theorem cpus_union_of_full {cpus : Set Nat} (hinf : s.infinite = true)
    (hcpus : ∀ x ∈ cpus, s.ulongs.length * 64 ≤ x) : s.cpus = s.cpus ∪ cpus := by
  refine (Set.union_eq_left.mpr fun x hx => ?_).symm
  have hle := hcpus x hx
  exact (mem_cpus_of_le (by omega)).mpr hinf

theorem cpus_setRange {begincpu : UInt32} {endcpu : Int32}
    (h : s.setRange mem begincpu endcpu = some t) :
    t.cpus = s.cpus ∪ range begincpu endcpu := by
  simp only [setRange] at h
  split at h
  case isTrue hempty =>
    obtain rfl := Option.some.inj h
    have hlt := UInt32.lt_iff_toNat_lt.mp hempty
    have hne : endcpu ≠ -1 := by
      rintro rfl
      have hb := begincpu.toNat_lt
      have hlast : (-1 : Int32).toUInt32.toNat = 2 ^ 32 - 1 := by decide
      omega
    rw [range, if_neg hne, Set.Icc_eq_empty (Nat.not_le.mpr hlt), Set.union_empty]
  case isFalse hne =>
    have hle : begincpu.toNat ≤ endcpu.toUInt32.toNat :=
      UInt32.le_iff_toNat_le.mp (UInt32.not_lt.mp hne)
    split at h
    case isTrue hfull =>
      obtain rfl := Option.some.inj h
      exact cpus_union_of_full hfull.1 fun x hx =>
        hfull.2.trans (range_subset_Ici begincpu endcpu hx)
    case isFalse hstored =>
      split at h
      case isTrue hinfinite =>
        obtain ⟨s', hs', ht⟩ := Option.bind_eq_some_iff.mp h
        obtain rfl := Option.some.inj ht
        obtain ⟨hlen, -, hread⟩ := realloc_eq_some hs'
        rw [cpus_setFrom (by omega), cpus_eq_iff.mpr hread, range, if_pos hinfinite]
      case isFalse hfinite =>
        obtain ⟨s', hs', ht⟩ := Option.bind_eq_some_iff.mp h
        obtain rfl := Option.some.inj ht
        obtain ⟨hlen, -, hread⟩ := realloc_eq_some hs'
        rw [range, if_neg hfinite]
        split at hlen
        case isTrue hclip =>
          have hbegin : ¬s.ulongs.length * 64 ≤ begincpu.toNat := fun h => hstored ⟨hclip.1, h⟩
          rw [if_pos hclip, cpus_setWithin (by omega) (by omega), cpus_eq_iff.mpr hread]
          -- what the range has behind the stored words is in the set already
          ext x
          rw [Set.mem_union, Set.mem_union, Set.mem_Icc, Set.mem_Icc]
          by_cases hx : 64 * s.ulongs.length ≤ x
          · have hin := (mem_cpus_of_le hx).mpr hclip.1
            exact iff_of_true (.inl hin) (.inl hin)
          · refine or_congr_right (and_congr_right fun _ => ?_)
            omega
        case isFalse hclip =>
          rw [if_neg hclip, cpus_setWithin hle (by omega), cpus_eq_iff.mpr hread]

/-! ## `hwloc_bitmap_singlify` -/

theorem singlifyWords_found (vs : List Ulong) :
    singlifyWords true vs = (List.replicate vs.length 0#64, true) := by
  induction vs with
  | nil => rfl
  | cons v vs ih => simp [singlifyWords, ih, List.replicate_succ]

/-- Only the lowest bit is left, if there is one. -/
theorem singlifyWords_cases (vs : List Ulong) :
    (singlifyWords false vs = (vs, false) ∧ ∀ v ∈ vs, v = 0#64) ∨
      ∃ pre v post, vs = pre ++ v :: post ∧ (∀ u ∈ pre, u = 0#64) ∧ v ≠ 0#64 ∧
        singlifyWords false vs =
          (pre ++ subbitmapCpu (ffs v - 1) :: List.replicate post.length 0#64, true) := by
  induction vs with
  | nil => exact .inl ⟨rfl, by simp⟩
  | cons v vs ih =>
    by_cases hv : v = 0#64
    · have hstep : singlifyWords false (v :: vs) =
          (v :: (singlifyWords false vs).1, (singlifyWords false vs).2) := by
        simp [singlifyWords, hv]
      rcases ih with ⟨heq, hzero⟩ | ⟨pre, u, post, rfl, hpre, hu, heq⟩
      · refine .inl ⟨by rw [hstep, heq], ?_⟩
        exact List.forall_mem_cons.mpr ⟨hv, hzero⟩
      · exact .inr ⟨v :: pre, u, post, rfl, List.forall_mem_cons.mpr ⟨hv, hpre⟩, hu,
          by rw [hstep, heq]; rfl⟩
    · refine .inr ⟨[], v, vs, rfl, by simp, hv, ?_⟩
      simp [singlifyWords, hv, singlifyWords_found]

/-- Words that are all zero. -/
theorem mem_cpus_of_zeros (hs : ∀ v ∈ s.ulongs, v = 0#64) :
    x ∈ s.cpus ↔ s.infinite = true ∧ 64 * s.ulongs.length ≤ x := by
  by_cases hx : 64 * s.ulongs.length ≤ x
  · rw [mem_cpus_of_le hx, and_iff_left hx]
  · refine iff_of_false ?_ fun h => hx h.2
    have hi : x / 64 < s.ulongs.length := by omega
    rw [mem_cpus, bit, readulong, word_of_lt hi, hs _ (List.getElem_mem hi), BitVec.getLsbD_zero]
    simp

/-- The lowest number of a set, alone. -/
theorem eq_singleton_of_isLeast {A : Set Nat} {m : Nat} (h : IsLeast A m) :
    {x | IsLeast A x} = {m} := by
  ext x
  exact ⟨fun hx => hx.unique h, fun hx => Set.mem_singleton_iff.mp hx ▸ h⟩

/-- The words of a bitmap with one bit. -/
theorem cpus_single {pre post : List Ulong} {k : Nat} (hpre : ∀ u ∈ pre, u = 0#64)
    (hpost : ∀ u ∈ post, u = 0#64) (hk : k < 64)
    (hs : s.ulongs = pre ++ subbitmapCpu k :: post) (hinf : s.infinite = false) :
    s.cpus = {64 * pre.length + k} := by
  have hzero : tailWord s.infinite = (0#64 : Ulong) := by rw [hinf]; rfl
  ext x
  obtain ⟨i, j, hj, rfl⟩ := exists_place (w := 64) (by decide) x
  rw [mem_cpus_place hj, Set.mem_singleton_iff]
  have hword : s.readulong i = if i = pre.length then subbitmapCpu k else 0#64 := by
    rw [readulong, hs]
    by_cases hi : i < pre.length
    · rw [word_append_of_lt hi, if_neg (by omega)]
      exact hpre _ (List.getElem_mem hi)
    · rw [word_append_of_le (Nat.not_lt.mp hi)]
      split
      case isTrue heq =>
        rw [heq, Nat.sub_self]
        rfl
      case isFalse hne =>
        obtain ⟨d, hd⟩ : ∃ d, i - pre.length = d + 1 := ⟨i - pre.length - 1, by omega⟩
        rw [hd, word, List.getElem?_cons_succ]
        by_cases hd' : d < post.length
        · rw [List.getElem?_eq_getElem hd', Option.getD_some]
          exact hpost _ (List.getElem_mem hd')
        · rw [List.getElem?_eq_none (Nat.not_lt.mp hd'), Option.getD_none, hzero]
  rw [hword]
  split
  case isTrue heq =>
    rw [getLsbD_subbitmapCpu hj, decide_eq_true_iff, Nat.mod_eq_of_lt hk]
    omega
  case isFalse hne =>
    rw [BitVec.getLsbD_zero]
    exact iff_of_false (by simp) (by omega)

/-- The first bit of the first word that is not zero. -/
theorem isLeast_cpus {pre post : List Ulong} {v : Ulong} (hs : s.ulongs = pre ++ v :: post)
    (hpre : ∀ u ∈ pre, u = 0#64) (hv : v ≠ 0#64) :
    IsLeast s.cpus (64 * pre.length + (ffs v - 1)) := by
  obtain ⟨hbit, hlt, hlow⟩ := ffs_spec hv
  have hword : s.readulong pre.length = v := by
    rw [readulong, hs, word_append_of_le le_rfl, Nat.sub_self]
    rfl
  constructor
  · rw [mem_cpus_place hlt, hword, hbit]
  · intro x hx
    obtain ⟨i, k, hk, rfl⟩ := exists_place (w := 64) (by decide) x
    rw [mem_cpus_place hk] at hx
    by_contra hless
    rcases Nat.lt_or_ge i pre.length with hi | hi
    · rw [readulong, hs, word_append_of_lt hi, hpre _ (List.getElem_mem hi),
        BitVec.getLsbD_zero] at hx
      simp at hx
    · obtain rfl : i = pre.length := by omega
      rw [hword, hlow k (by omega)] at hx
      simp at hx

/-- The lowest number is kept, if there is one. -/
theorem cpus_singlify (hfits : s.Fits) (h : s.singlify mem = (true, t)) :
    t.cpus = {x | IsLeast s.cpus x} := by
  unfold Fits at hfits
  simp only [singlify] at h
  rcases singlifyWords_cases s.ulongs with ⟨heq, hzero⟩ | ⟨pre, v, post, hs, hpre, hv, heq⟩
  · have hempty : ∀ low : Bitmap, low.ulongs = s.ulongs → low.infinite = false → low.cpus = ∅ := by
      intro low hlow hinf
      ext x
      rw [mem_cpus_of_zeros (by rwa [hlow]), hinf]
      simp
    split at h
    case isTrue hinf =>
      split at h
      · simp at h
      case h_2 t' hset =>
        obtain rfl := (Prod.mk.inj h).2
        have hfirst : (UInt32.ofNat (s.ulongs.length * 64)).toNat = s.ulongs.length * 64 :=
          UInt32.toNat_ofNat_of_lt' (show _ < 2 ^ 32 by omega)
        have hleast : IsLeast s.cpus (s.ulongs.length * 64) := by
          constructor
          · exact (mem_cpus_of_zeros hzero).mpr ⟨hinf.1, by omega⟩
          · intro x hx
            have hle := ((mem_cpus_of_zeros hzero).mp hx).2
            omega
        rw [cpus_set hset, hempty _ (congrArg Prod.fst heq) rfl, hfirst,
          eq_singleton_of_isLeast hleast, insert_empty_eq]
    case isFalse hinf =>
      obtain rfl := (Prod.mk.inj h).2
      rw [hempty _ (congrArg Prod.fst heq) rfl]
      refine (Set.eq_empty_iff_forall_notMem.mpr fun x hx => ?_).symm
      have hmem := (mem_cpus_of_zeros hzero).mp hx.1
      exact hinf ⟨hmem.1, by simp [heq]⟩
  · rw [if_neg (by simp [heq])] at h
    obtain rfl := (Prod.mk.inj h).2
    rw [eq_singleton_of_isLeast (isLeast_cpus hs hpre hv)]
    exact cpus_single hpre (fun u hu => (List.mem_replicate.mp hu).2) (ffs_spec hv).2.1
      (congrArg Prod.fst heq) rfl

/-! ## What is asked -/

theorem isset_eq (s : Bitmap) (x : Nat) : s.isset x = true ↔ x ∈ s.cpus := by
  rw [isset, decide_eq_true_iff, ne_zero_iff, mem_cpus, bit]
  constructor
  · rintro ⟨k, hk, hbit⟩
    rw [BitVec.getLsbD_and, Bool.and_eq_true, getLsbD_subbitmapCpu hk, decide_eq_true_iff] at hbit
    exact hbit.2 ▸ hbit.1
  · intro hbit
    have hk : x % 64 < 64 := Nat.mod_lt x (by decide)
    refine ⟨x % 64, hk, ?_⟩
    rw [BitVec.getLsbD_and, Bool.and_eq_true, getLsbD_subbitmapCpu hk, decide_eq_true_iff]
    exact ⟨hbit, rfl⟩

theorem iszero_eq (s : Bitmap) : s.iszero = true ↔ s.cpus = ∅ := by
  have hwords : s.cpus = ∅ ↔ ∀ i, s.readulong i = 0#64 := by
    rw [← cpus_zero s, cpus_eq_iff]
    refine forall_congr' fun i => ?_
    have hi : s.zero.readulong i = 0#64 := by
      rw [readulong, word, zero, List.getElem?_singleton]
      split
      · rfl
      · rfl
    rw [hi]
  rw [hwords, iszero, Bool.and_eq_true, Bool.not_eq_true', List.all_eq_true]
  constructor
  · rintro ⟨hinf, hall⟩ i
    rw [readulong]
    by_cases hi : i < s.ulongs.length
    · rw [word_of_lt hi]
      exact of_decide_eq_true (hall _ (List.getElem_mem hi))
    · rw [word_of_le (Nat.not_lt.mp hi), hinf]
      rfl
  · intro h
    constructor
    · have htail := h s.ulongs.length
      rw [readulong, word_of_le le_rfl] at htail
      exact (tailWord_inj (w := 64) (by decide)).mp htail
    · intro v hv
      obtain ⟨i, hi, rfl⟩ := List.getElem_of_mem hv
      have hword := h i
      rw [readulong, word_of_lt hi] at hword
      exact decide_eq_true hword

theorem isequal_eq (s t : Bitmap) : s.isequal t = true ↔ s.cpus = t.cpus := by
  have hcomm : (∀ v ∈ t.ulongs.drop (min s.ulongs.length t.ulongs.length),
      v = tailWord s.infinite) ↔
      ∀ v ∈ t.ulongs.drop (min s.ulongs.length t.ulongs.length), tailWord s.infinite = v :=
    forall₂_congr fun _ _ => eq_comm
  rw [cpus_eq_iff]
  unfold readulong
  rw [forall_word_iff (P := fun u v => u = v), tailWord_inj (by decide), ← hcomm]
  simp only [isequal, Bool.and_eq_true, List.all_eq_true, decide_eq_true_iff, beq_iff_eq,
    and_assoc]

theorem intersects_eq_false (s t : Bitmap) :
    s.intersects t = false ↔ ∀ i, s.readulong i &&& t.readulong i = 0#64 := by
  have htail : (tailWord s.infinite : Ulong) &&& tailWord t.infinite = 0#64 ↔
      (s.infinite && t.infinite) = false := by
    cases s.infinite <;> cases t.infinite <;> decide
  unfold readulong
  rw [forall_word_iff (P := fun u v => u &&& v = 0#64), htail]
  simp only [and_tailWord_eq_zero, BitVec.and_comm (tailWord s.infinite)]
  simp only [intersects, Bool.or_eq_false_iff, List.any_eq_false, decide_eq_true_iff, not_not,
    Bool.and_eq_false_imp, and_assoc]
  constructor
  · rintro ⟨hboth, hleft, hright, hinf⟩
    exact ⟨hboth, fun v hv ht => hleft ht v hv, fun v hv hs => hright hs v hv, hinf⟩
  · rintro ⟨hboth, hleft, hright, hinf⟩
    exact ⟨hboth, fun ht v hv => hleft v hv ht, fun hs v hv => hright v hv hs, hinf⟩

/-- Two sets meet in a word. -/
theorem intersects_eq (s t : Bitmap) : s.intersects t = true ↔ (s.cpus ∩ t.cpus).Nonempty := by
  have hwords : ¬(s.cpus ∩ t.cpus).Nonempty ↔ ∀ i, s.readulong i &&& t.readulong i = 0#64 := by
    have hzero (x : Nat) : bit (fun _ => 0#64) x = false := BitVec.getLsbD_zero
    rw [← @word_ext_iff _ (fun i => s.readulong i &&& t.readulong i) fun _ => 0#64,
      Set.not_nonempty_iff_eq_empty, Set.eq_empty_iff_forall_notMem]
    refine forall_congr' fun x => ?_
    rw [hzero, bit, BitVec.getLsbD_and, Bool.and_eq_false_iff, Set.mem_inter_iff, not_and_or,
      mem_cpus, mem_cpus, Bool.not_eq_true, Bool.not_eq_true]
    rfl
  rw [← not_iff_not, hwords, ← intersects_eq_false, Bool.not_eq_true]

theorem forall_mem_or_left {b : Prop} {P : Ulong → Prop} {vs : List Ulong} :
    (∀ v ∈ vs, b ∨ P v) ↔ b ∨ ∀ v ∈ vs, P v := by
  by_cases hb : b
  · simp [hb]
  · simp [hb]

theorem isincluded_eq (s t : Bitmap) : s.isincluded t = true ↔ s.cpus ⊆ t.cpus := by
  have hwords : s.cpus ⊆ t.cpus ↔ ∀ i, t.readulong i = t.readulong i ||| s.readulong i := by
    rw [← @word_ext_iff _ t.readulong fun i => t.readulong i ||| s.readulong i]
    refine forall_congr' fun x => ?_
    rw [mem_cpus, mem_cpus, bit, bit, bit, BitVec.getLsbD_or]
    cases (s.readulong (x / 64)).getLsbD (x % 64) <;> simp
  have hleft (v : Ulong) : tailWord t.infinite = tailWord t.infinite ||| v ↔
      (t.infinite = true ∨ v = 0#64) := by
    cases t.infinite with
    | true => simp [-BitVec.reduceAllOnes, tailWord]
    | false => simp [tailWord, eq_comm (a := 0#64)]
  have hright (v : Ulong) : v = v ||| tailWord s.infinite ↔
      (s.infinite = false ∨ v = BitVec.allOnes 64) := by
    cases s.infinite with
    | true => simp [-BitVec.reduceAllOnes, tailWord]
    | false => simp [tailWord]
  rw [hwords]
  unfold readulong
  rw [forall_word_iff (P := fun u v => u = u ||| v)]
  simp only [hleft, hright]
  simp only [isincluded, Bool.and_eq_true, List.all_eq_true, decide_eq_true_iff, Bool.or_eq_true,
    Bool.not_eq_true', and_assoc, forall_mem_or_left]
  have htail : tailWord s.infinite = (0#64 : Ulong) ↔ s.infinite = false :=
    @tailWord_inj _ _ false (by decide)
  rw [htail, or_comm (b := s.infinite = false)]
  exact and_congr_right fun _ => and_left_comm

end LibQuo.Bitmap
