import LibQuo.Bitmap.Sets

/-!
The searches of `bitmap.c`, and with them what all its queries say about the sets.
-/

namespace LibQuo.Bitmap
open WordSet

/-- The answer of a search upwards: the least number of `A`, or `-1` if there is none. -/
def FindsLeast (A : Set Nat) (r : Int) : Prop :=
  r = -1 ∧ A = ∅ ∨ ∃ x : Nat, r = x ∧ IsLeast A x

/-- The answer of a search downwards: the greatest number of `A`, or `-1` if there is none. -/
def FindsGreatest (A : Set Nat) (r : Int) : Prop :=
  r = -1 ∧ (A = ∅ ∨ ¬BddAbove A) ∨ ∃ x : Nat, r = x ∧ IsGreatest A x

variable {s t : Bitmap}

theorem toInt_of_lt {x : Nat} (h : x < 2 ^ 31) : toInt x = x := by
  have hmod : (x : Int).bmod (2 ^ 32) = x := by
    simp only [Int.bmod]
    omega
  exact hmod

/-- What a search sees of the word in which it begins. -/
theorem bit_masked {get : Nat → Ulong} {prevCpu : Int} {x : Nat}
    (hx : (prevCpu + 1).toNat ≤ x) :
    bit (fun k => if 0 ≤ prevCpu ∧ prevCpu.toNat / 64 = k
      then get k &&& ~~~ulbitTo (prevCpu.toNat % 64) else get k) x = bit get x := by
  have hk : x % 64 < 64 := Nat.mod_lt x (by decide)
  rw [bit, bit]
  split
  case isTrue hword =>
    have hmod : prevCpu.toNat % 64 < 64 := Nat.mod_lt _ (by decide)
    have hlt : ¬x % 64 ≤ prevCpu.toNat % 64 := by omega
    rw [BitVec.getLsbD_and, BitVec.getLsbD_not, getLsbD_ulbitTo hmod]
    simp [hk, hlt]
  case isFalse => rfl

/-- Nothing up to the previous number is seen. -/
theorem bit_masked_of_le {get : Nat → Ulong} {prevCpu : Int} {x : Nat}
    (hword : (prevCpu + 1).toNat / 64 ≤ x / 64) (hx : x < (prevCpu + 1).toNat) :
    bit (fun k => if 0 ≤ prevCpu ∧ prevCpu.toNat / 64 = k
      then get k &&& ~~~ulbitTo (prevCpu.toNat % 64) else get k) x = false := by
  have hmod : prevCpu.toNat % 64 < 64 := Nat.mod_lt _ (by decide)
  have hle : x % 64 ≤ prevCpu.toNat % 64 := by omega
  rw [bit, if_pos (by omega), BitVec.getLsbD_and, BitVec.getLsbD_not, getLsbD_ulbitTo hmod]
  simp [hle]

theorem searchFrom_spec {get : Nat → Ulong} {count : Nat} {more : Bool} {prevCpu : Int}
    (hcount : count < 2 ^ 25) (htail : ∀ i, count ≤ i → get i = tailWord more)
    (hprev : -1 ≤ prevCpu) : FindsLeast {x | prevCpu < x ∧ bit get x = true}
      (searchFrom get count more prevCpu) := by
  have hbehind {x : Nat} (hx : 64 * count ≤ x) : bit get x = more := by
    rw [bit, htail _ (by omega), getLsbD_tailWord _ (Nat.mod_lt x (by decide))]
  have hi : ((prevCpu + 1) / 64).toNat = (prevCpu + 1).toNat / 64 := by omega
  simp only [searchFrom, hi]
  split
  case isTrue hle =>
    cases more with
    | true =>
      refine .inr ⟨(prevCpu + 1).toNat, by simp; omega, ⟨by omega, hbehind (by omega)⟩, ?_⟩
      intro x hx
      have hx := hx.1
      omega
    | false =>
      refine .inl ⟨by simp, Set.eq_empty_iff_forall_notMem.mpr fun x hx => ?_⟩
      have hlt := hx.1
      have hbit := hx.2
      rw [hbehind (by omega)] at hbit
      exact Bool.noConfusion hbit
  case isFalse hlt =>
    generalize hmasked : (fun k => if 0 ≤ prevCpu ∧ prevCpu.toNat / 64 = k
      then get k &&& ~~~ulbitTo (prevCpu.toNat % 64) else get k) = masked
    have hseen {x : Nat} (hx : (prevCpu + 1).toNat ≤ x) : bit masked x = bit get x := by
      rw [← hmasked]
      exact bit_masked hx
    cases hfirst : firstIn masked ((prevCpu + 1).toNat / 64)
        (count - (prevCpu + 1).toNat / 64) with
    | some x =>
      obtain ⟨⟨hlo, hhi⟩, hbit, hleast⟩ := firstIn_some hfirst
      have hint : toInt x = x := toInt_of_lt (by omega)
      have hx : (prevCpu + 1).toNat ≤ x := by
        by_contra hx
        rw [← hmasked, bit_masked_of_le (by omega) (by omega)] at hbit
        exact Bool.noConfusion hbit
      refine .inr ⟨x, hint, ⟨by omega, (hseen hx).symm.trans hbit⟩, ?_⟩
      intro y hy
      by_contra hyx
      have hprev := hy.1
      have hnone := hleast y (by omega) (by omega)
      rw [hseen (by omega), hy.2] at hnone
      exact Bool.noConfusion hnone
    | none =>
      have hnone {y : Nat} (hy : prevCpu < y) (hlt : y < 64 * count) : bit get y = false := by
        rw [← hseen (by omega)]
        exact firstIn_none hfirst (by omega) (by omega)
      cases more with
      | true =>
        rw [found, if_pos rfl, toInt_of_lt (by omega)]
        refine .inr ⟨count * 64, rfl, ⟨by omega, hbehind (by omega)⟩, ?_⟩
        intro y hy
        by_contra hlt
        have hbit := hnone hy.1 (by omega)
        rw [hy.2] at hbit
        exact Bool.noConfusion hbit
      | false =>
        refine .inl ⟨rfl, Set.eq_empty_iff_forall_notMem.mpr fun y hy => ?_⟩
        have hbit := hy.2
        by_cases hlt : y < 64 * count
        · rw [hnone hy.1 hlt] at hbit
          exact Bool.noConfusion hbit
        · rw [hbehind (by omega)] at hbit
          exact Bool.noConfusion hbit

theorem next_spec (hs : s.Fits) {prevCpu : Int} (hprev : -1 ≤ prevCpu) :
    FindsLeast {x | prevCpu < x ∧ x ∈ s.cpus} (s.next prevCpu) :=
  searchFrom_spec hs (fun _ hi => word_of_le hi) hprev

theorem bit_not (get : Nat → Ulong) (x : Nat) : bit (fun k => ~~~get k) x = !bit get x := by
  have hk : x % 64 < 64 := Nat.mod_lt x (by decide)
  rw [bit, bit, BitVec.getLsbD_not]
  simp [hk]

theorem nextUnset_spec (hs : s.Fits) {prevCpu : Int} (hprev : -1 ≤ prevCpu) :
    FindsLeast {x | prevCpu < x ∧ x ∉ s.cpus} (s.nextUnset prevCpu) := by
  have htail (i : Nat) (hi : s.ulongs.length ≤ i) :
      ~~~s.readulong i = tailWord (!s.infinite) := by
    rw [readulong, word_of_le hi]
    cases s.infinite <;> decide
  have hset : {x : Nat | prevCpu < x ∧ x ∉ s.cpus} =
      {x : Nat | prevCpu < x ∧ bit (fun k => ~~~s.readulong k) x = true} := by
    ext x
    rw [Set.mem_ofPred_eq, Set.mem_ofPred_eq, bit_not, mem_cpus]
    simp
  rw [hset]
  exact searchFrom_spec hs htail hprev

theorem first_eq_next (s : Bitmap) : s.first = s.next (-1) := by
  have hstart : ¬s.ulongs.length ≤ ((-1 + 1 : Int) / 64).toNat := Nat.not_le.mpr s.count_pos
  simp only [first, next, searchFrom]
  rw [if_neg hstart]
  rfl

theorem first_spec (hs : s.Fits) : FindsLeast s.cpus s.first := by
  have hall : {x : Nat | (-1 : Int) < x ∧ x ∈ s.cpus} = s.cpus := by
    ext x
    exact and_iff_right (by omega)
  rw [first_eq_next, ← hall]
  exact next_spec hs le_rfl

/-- A bitmap that is full behind its words has no last number. -/
theorem bddAbove_cpus_iff : BddAbove s.cpus ↔ s.infinite = false := by
  constructor
  · rintro ⟨bound, hbound⟩
    by_contra hinf
    have hin : 64 * s.ulongs.length + (bound + 1) ∈ s.cpus :=
      (mem_cpus_of_le (by omega)).mpr (Bool.not_eq_false _ ▸ hinf)
    have hle := hbound hin
    omega
  · intro hinf
    refine ⟨64 * s.ulongs.length, fun x hx => ?_⟩
    by_contra hlt
    have hfull := (mem_cpus_of_le (by omega)).mp hx
    rw [hinf] at hfull
    contradiction

theorem last_spec (hs : s.Fits) : FindsGreatest s.cpus s.last := by
  unfold Fits at hs
  rw [last]
  cases hinf : s.infinite with
  | true =>
    refine .inl ⟨rfl, .inr ?_⟩
    rw [bddAbove_cpus_iff, hinf]
    simp
  | false =>
    have hstored {x : Nat} (hx : x ∈ s.cpus) : x < 64 * s.ulongs.length := by
      by_contra hle
      rw [mem_cpus_of_le (Nat.not_lt.mp hle), hinf] at hx
      contradiction
    rw [if_neg (by simp)]
    cases hlast : lastIn flsl s.readulong s.ulongs.length with
    | some x =>
      obtain ⟨hlt, hbit, hgreatest⟩ := lastIn_some flsl_findsLast hlast
      refine .inr ⟨x, toInt_of_lt (by omega), hbit, fun y hy => ?_⟩
      by_contra hxy
      have hnone := hgreatest y (Nat.not_le.mp hxy) (hstored hy)
      rw [mem_cpus.mp hy] at hnone
      exact Bool.noConfusion hnone
    | none =>
      refine .inl ⟨rfl, .inl (Set.eq_empty_iff_forall_notMem.mpr fun y hy => ?_)⟩
      have hnone := lastIn_none hlast (hstored hy)
      rw [mem_cpus.mp hy] at hnone
      exact Bool.noConfusion hnone

structure QueriesExact (s t : Bitmap) : Prop where
  isset : ∀ x, s.isset x = true ↔ x ∈ s.cpus
  iszero : s.iszero = true ↔ s.cpus = ∅
  isequal : s.isequal t = true ↔ s.cpus = t.cpus
  intersects : s.intersects t = true ↔ (s.cpus ∩ t.cpus).Nonempty
  isincluded : s.isincluded t = true ↔ s.cpus ⊆ t.cpus
  first : FindsLeast s.cpus s.first
  last : FindsGreatest s.cpus s.last
  next : ∀ prevCpu : Int, -1 ≤ prevCpu → FindsLeast {x | prevCpu < x ∧ x ∈ s.cpus} (s.next prevCpu)
  nextUnset : ∀ prevCpu : Int, -1 ≤ prevCpu →
    FindsLeast {x | prevCpu < x ∧ x ∉ s.cpus} (s.nextUnset prevCpu)

theorem queriesExact (hs : s.Fits) (t : Bitmap) : QueriesExact s t where
  isset := isset_eq s
  iszero := iszero_eq s
  isequal := isequal_eq s t
  intersects := intersects_eq s t
  isincluded := isincluded_eq s t
  first := first_spec hs
  last := last_spec hs
  next _ := next_spec hs
  nextUnset _ := nextUnset_spec hs

end LibQuo.Bitmap
