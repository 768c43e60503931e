import Mathlib.Algebra.Ring.Int.Defs
import LibQuo.Bitmap.HexText
import LibQuo.Bitmap.Search

/-!
The text of a bitmap as a list of ranges (`bitmap.c`), as `QUO_stringify_cbind` gives it:
the maximal runs of numbers, in order. What is printed is read back as the same set.
-/

namespace LibQuo.Bitmap
open WordSet CText

def decimal (n : Int) : List Char :=
  if n < 0 then '-' :: Nat.toDigits 10 (-n).toNat else Nat.toDigits 10 n.toNat

/-- A range up to `endcpu`, which is not in it; `-1` if there is no end. -/
def rangeText (begincpu endcpu : Int) : List Char :=
  if endcpu = begincpu + 1 then decimal begincpu
  else if endcpu = -1 then decimal begincpu ++ ['-']
  else decimal begincpu ++ '-' :: decimal (endcpu - 1)

/-- The loop of `hwloc_bitmap_list_snprintf`. -/
def printRanges (set : Bitmap) : Nat → Int → Bool → Out → Result Out
  | 0, _, _, _ => .error .noFuel
  | fuel + 1, prev, needcomma, o =>
    let begincpu := set.next prev
    if begincpu = -1 then pure o
    else
      let endcpu := set.nextUnset begincpu
      emit (comma needcomma ++ rangeText begincpu endcpu) o >>= fun o =>
        if endcpu = -1 then pure o else printRanges set fuel (endcpu - 1) true o

def listSnprintf (set : Bitmap) (o : Out) : Result Out :=
  printRanges set (64 * set.ulongs.length + 1) (-1) false o

/-- Where a call of the loop of `hwloc_bitmap_list_sscanf` gets to: the end of the string, an
error, or the next turn. -/
inductive Turn
  | done (set : Bitmap)
  | failed (set : Bitmap)
  | next (set : Bitmap) (begincpu : Ulong)

/-- One turn of the loop of `hwloc_bitmap_list_sscanf`, with the number that was read and what
follows it. What `hwloc_bitmap_set` returns is not looked at. -/
def listTurn (mem : Bool) (set : Bitmap) (begincpu val : Ulong) (next : List Char) : Turn :=
  if begincpu ≠ -1 then
    match set.setRange mem ⟨begincpu.setWidth 32⟩ ⟨⟨val.setWidth 32⟩⟩ with
    | none => .failed set
    | some set => .next set (-1)
  else if next.head? = some '-' then
    if next.tail = [] then
      match set.setRange mem ⟨val.setWidth 32⟩ (-1) with
      | none => .failed set
      | some set => .done set
    else .next set val
  else if next.head? = some ',' ∨ next.head? = some ' ' ∨ next = [] then
    .next ((set.set mem ⟨val.setWidth 32⟩).getD set) begincpu
  else .next set begincpu

/-- The loop of `hwloc_bitmap_list_sscanf`; `mem` says whether there is memory when that much
of the string is left. -/
def scanRanges (mem : List Char → Bool) : Nat → Bitmap → Ulong → List Char → Result (Bool × Bitmap)
  | _, set, _, [] => .ok (true, set)
  | 0, _, _, _ :: _ => .error .noFuel
  | fuel + 1, set, begincpu, current =>
    let current := current.dropWhile fun c => c = ',' ∨ c = ' '
    let (val, next) := strtoul 64 0 current
    if next.length = current.length then .ok (false, set.zero)
    else match listTurn (mem next) set begincpu val next with
      | .done set => .ok (true, set)
      | .failed set => .ok (false, set.zero)
      | .next set begincpu =>
        if next = [] then .ok (true, set) else scanRanges mem fuel set begincpu next.tail

def listSscanf (mem : List Char → Bool) (set : Bitmap) (string : List Char) :
    Result (Bool × Bitmap) :=
  scanRanges mem (string.length + 1) set.zero (-1) string

/-! ## What is printed -/

/-- The ranges are the maximal runs of numbers in `A` behind `prev`; none begins or ends
behind `top`. -/
inductive MaximalRuns (A : Set Nat) (top : Nat) : Int → List (Int × Int) → Prop
  | none {prev : Int} (gap : ∀ x : Nat, prev < x → x ∉ A) : MaximalRuns A top prev []
  | last {prev : Int} {b : Nat} (after : prev < b) (bound : b ≤ top)
      (gap : ∀ x : Nat, prev < x → x < b → x ∉ A) (all : ∀ x : Nat, b ≤ x → x ∈ A) :
      MaximalRuns A top prev [(b, -1)]
  | run {prev : Int} {b e : Nat} {rs : List (Int × Int)} (after : prev < b) (nonempty : b < e)
      (bound : e ≤ top) (gap : ∀ x : Nat, prev < x → x < b → x ∉ A)
      (all : ∀ x : Nat, b ≤ x → x < e → x ∈ A) (maximal : e ∉ A)
      (rest : MaximalRuns A top (e - 1) rs) : MaximalRuns A top prev ((b, e) :: rs)

def rangesText (needcomma : Bool) : List (Int × Int) → List Char
  | [] => []
  | r :: rs => comma needcomma ++ (rangeText r.1 r.2 ++ rangesText true rs)

variable {s t set : Bitmap} {A : Set Nat} {prev : Int} {rs : List (Int × Int)} {rest : List Char}
  {n b e fuel top : Nat}

/-- From `prev` on, the loop prints the maximal runs, and ends in the turns it has. -/
theorem printRanges_prints (hs : s.Fits) (hprev : -1 ≤ prev) (hlt : prev < 64 * s.ulongs.length)
    (hfuel : 64 * s.ulongs.length < fuel + prev + 1) :
    ∃ rs, MaximalRuns s.cpus (64 * s.ulongs.length) prev rs ∧ ∀ needcomma done,
      Prints (printRanges s fuel prev needcomma) done (rangesText needcomma rs) := by
  induction fuel generalizing prev with
  | zero => omega
  | succ fuel ih =>
    have hfits : s.ulongs.length < 2 ^ 25 := hs
    rcases next_spec hs hprev with ⟨hnext, hnone⟩ | ⟨b, hnext, ⟨hb, hmem⟩, hleast⟩
    · refine ⟨[], .none fun x hx hxA => ?_, fun needcomma done => ?_⟩
      · exact Set.eq_empty_iff_forall_notMem.mp hnone x ⟨hx, hxA⟩
      · have hstop : printRanges s (fuel + 1) prev needcomma = pure := by
          funext o
          simp only [printRanges, hnext]
          rfl
        rw [hstop]
        exact Prints.skip done
    · have hgap : ∀ x : Nat, prev < x → x < b → x ∉ s.cpus := by
        intro x hx hxb hxA
        exact absurd (hleast ⟨hx, hxA⟩) (Nat.not_le.mpr hxb)
      have hb₁ : ¬(b : Int) = -1 := by omega
      have hb₂ : b ≤ 64 * s.ulongs.length := by
        by_contra hgt
        have hinf := (mem_cpus_of_le (s := s) (x := b) (by omega)).mp hmem
        exact hgap (64 * s.ulongs.length) (by omega) (by omega)
          ((mem_cpus_of_le (Nat.le_refl _)).mpr hinf)
      rcases @nextUnset_spec s hs b (by omega) with
        ⟨hunset, hnone⟩ | ⟨e, hunset, ⟨he, hout⟩, hleast'⟩
      · refine ⟨[(b, -1)], .last hb (by omega) hgap fun x hx => ?_, fun needcomma done => ?_⟩
        · by_contra hxA
          rcases Nat.eq_or_lt_of_le hx with rfl | hlt'
          · exact hxA hmem
          · exact Set.eq_empty_iff_forall_notMem.mp hnone x ⟨by omega, hxA⟩
        · have hlast : printRanges s (fuel + 1) prev needcomma = fun o =>
              emit (comma needcomma ++ rangeText b (-1)) o >>= pure := by
            funext o
            simp only [printRanges, hnext, hunset, if_neg hb₁]
            rfl
          rw [hlast, rangesText, rangesText, List.append_nil]
          have hseq := (Prints.emit done (comma needcomma ++ rangeText b (-1))).seq (Prints.skip _)
          rw [List.append_nil] at hseq
          exact hseq
      · have he₁ : ¬(e : Int) = -1 := by omega
        have hin : ∀ x : Nat, b ≤ x → x < e → x ∈ s.cpus := by
          intro x hx hxe
          by_contra hxA
          rcases Nat.eq_or_lt_of_le hx with rfl | hlt'
          · exact hxA hmem
          · exact absurd (hleast' ⟨by omega, hxA⟩) (Nat.not_le.mpr hxe)
        have he₂ : e ≤ 64 * s.ulongs.length := by
          by_contra hgt
          refine hout ((mem_cpus_of_le (by omega)).mpr ?_)
          exact (mem_cpus_of_le (Nat.le_refl _)).mp (hin (64 * s.ulongs.length) hb₂ (by omega))
        obtain ⟨rs, hruns, hprints⟩ := @ih (e - 1) (by omega) (by omega) (by omega)
        refine ⟨(b, e) :: rs, .run hb (by omega) (by omega) hgap hin hout hruns,
          fun needcomma done => ?_⟩
        have hmore : printRanges s (fuel + 1) prev needcomma = fun o =>
            emit (comma needcomma ++ rangeText b e) o >>= printRanges s fuel (e - 1) true := by
          funext o
          simp only [printRanges, hnext, hunset, if_neg hb₁, if_neg he₁]
        rw [hmore, rangesText, ← List.append_assoc]
        exact (Prints.emit done _).seq (hprints true _)

/-! ## What is read back -/

theorem realloc_isSome {neededCount : Nat} (hbound : neededCount ≤ 2 ^ 31) (f : Bitmap → Bitmap) :
    ∃ t, (set.reallocByUlongs true neededCount hbound >>= fun s => pure (f s)) = some t := by
  unfold reallocByUlongs
  split
  · exact ⟨_, rfl⟩
  · obtain ⟨t, ht⟩ := reset_isSome
    exact ⟨f t, by rw [ht]; rfl⟩

/-- With memory, a number is added. -/
theorem set_isSome (set : Bitmap) (cpu : UInt32) : ∃ t, set.set true cpu = some t ∧
    t.cpus = insert cpu.toNat set.cpus := by
  obtain ⟨t, ht⟩ : ∃ t, set.set true cpu = some t := by
    simp only [Bitmap.set]
    split
    · exact ⟨_, rfl⟩
    · exact realloc_isSome _ _
  exact ⟨t, ht, cpus_set ht⟩

/-- With memory, a range is added. -/
theorem setRange_isSome (set : Bitmap) (begincpu : UInt32) (endcpu : Int32) :
    ∃ t, set.setRange true begincpu endcpu = some t ∧
      t.cpus = set.cpus ∪ range begincpu endcpu := by
  obtain ⟨t, ht⟩ : ∃ t, set.setRange true begincpu endcpu = some t := by
    simp only [setRange]
    split
    · exact ⟨_, rfl⟩
    · split
      · exact ⟨_, rfl⟩
      · split
        · exact realloc_isSome _ _
        · exact realloc_isSome _ _
  exact ⟨t, ht, cpus_setRange ht⟩

theorem toNat_unsigned (h : n < 2 ^ 31) :
    (⟨(BitVec.ofNat 64 n).setWidth 32⟩ : UInt32).toNat = n := by
  change ((BitVec.ofNat 64 n).setWidth 32).toNat = n
  rw [BitVec.toNat_setWidth, BitVec.toNat_ofNat]
  omega

/-- A number that does not start with a sign has been read. -/
theorem ofNat_ne_minusOne (h : n < 2 ^ 31) : BitVec.ofNat 64 n ≠ -1 := by
  intro heq
  have hval := congrArg BitVec.toNat heq
  rw [BitVec.toNat_ofNat, Nat.mod_eq_of_lt (by omega)] at hval
  have hminus : (-1 : Ulong).toNat = 2 ^ 64 - 1 := by decide
  omega

theorem int_ne_minusOne (h : n < 2 ^ 31) :
    (⟨⟨(BitVec.ofNat 64 n).setWidth 32⟩⟩ : Int32) ≠ -1 := by
  intro heq
  have hval := congrArg (fun i : Int32 => i.toUInt32.toNat) heq
  have hminus : (-1 : Int32).toUInt32.toNat = 2 ^ 32 - 1 := by decide
  have hnat : (⟨⟨(BitVec.ofNat 64 n).setWidth 32⟩⟩ : Int32).toUInt32.toNat = n := toNat_unsigned h
  simp only [hnat, hminus] at hval
  omega

/-- A single number ends with a comma or with the string. -/
theorem listTurn_single (set : Bitmap) (hb : b < 2 ^ 31)
    (hrest : rest = [] ∨ rest.head? = some ',') :
    ∃ t, listTurn true set (-1) (BitVec.ofNat 64 b) rest = .next t (-1) ∧
      t.cpus = insert b set.cpus := by
  obtain ⟨t, ht, hcpus⟩ := set_isSome set ⟨(BitVec.ofNat 64 b).setWidth 32⟩
  rw [toNat_unsigned hb] at hcpus
  refine ⟨t, ?_, hcpus⟩
  have hminus : ¬rest.head? = some '-' := by
    rcases hrest with rfl | hrest
    · simp
    · rw [hrest]
      decide
  rw [listTurn, if_neg (by simp), if_neg hminus, if_pos (hrest.elim (.inr ∘ .inr) .inl), ht]
  rfl

/-- A range with its end begins at the first number. -/
theorem listTurn_begin (mem : Bool) (set : Bitmap) (val : Ulong) (hrest : rest ≠ []) :
    listTurn mem set (-1) val ('-' :: rest) = .next set val := by
  rw [listTurn, if_neg (by simp), if_pos List.head?_cons, List.tail_cons, if_neg hrest]

theorem listTurn_finish (set : Bitmap) (hb : b < 2 ^ 31) (he : e < 2 ^ 31) (rest : List Char) :
    ∃ t, listTurn true set (BitVec.ofNat 64 b) (BitVec.ofNat 64 e) rest = .next t (-1) ∧
      t.cpus = set.cpus ∪ Set.Icc b e := by
  obtain ⟨t, ht, hcpus⟩ := setRange_isSome set ⟨(BitVec.ofNat 64 b).setWidth 32⟩
    ⟨⟨(BitVec.ofNat 64 e).setWidth 32⟩⟩
  have hend : (⟨⟨(BitVec.ofNat 64 e).setWidth 32⟩⟩ : Int32).toUInt32.toNat = e := toNat_unsigned he
  rw [range, if_neg (int_ne_minusOne he), hend, toNat_unsigned hb] at hcpus
  refine ⟨t, ?_, hcpus⟩
  rw [listTurn, if_pos (ofNat_ne_minusOne hb), ht]

theorem listTurn_last (set : Bitmap) (hb : b < 2 ^ 31) :
    ∃ t, listTurn true set (-1) (BitVec.ofNat 64 b) ['-'] = .done t ∧
      t.cpus = set.cpus ∪ Set.Ici b := by
  obtain ⟨t, ht, hcpus⟩ := setRange_isSome set ⟨(BitVec.ofNat 64 b).setWidth 32⟩ (-1)
  rw [range, if_pos rfl, toNat_unsigned hb] at hcpus
  refine ⟨t, ?_, hcpus⟩
  rw [listTurn, if_neg (by simp), if_pos List.head?_cons, List.tail_cons, if_pos rfl, ht]

def afterTurn (mem : List Char → Bool) (fuel : Nat) (next : List Char) :
    Turn → Result (Bool × Bitmap)
  | .done set => .ok (true, set)
  | .failed set => .ok (false, set.zero)
  | .next set begincpu =>
    if next = [] then .ok (true, set) else scanRanges mem fuel set begincpu next.tail

/-- A turn that begins at a number. -/
theorem scanRanges_number (mem : List Char → Bool) (fuel : Nat) (set : Bitmap) (begincpu : Ulong)
    (hn : n < 2 ^ 31) (hends : Ends rest) :
    scanRanges mem (fuel + 1) set begincpu (Nat.toDigits 10 n ++ rest) =
      afterTurn mem fuel rest (listTurn (mem rest) set begincpu (BitVec.ofNat 64 n) rest) := by
  have hread := @strtoul_decimal 64 n rest (by omega) hends
  have hdigits := (@ofDigits_toDigits 10 (by decide) (by decide) n).2
  have hne : Nat.toDigits 10 n ≠ [] := Nat.toDigits_ne_nil
  generalize Nat.toDigits 10 n = ds at *
  cases ds with
  | nil => exact absurd rfl hne
  | cons c ds =>
    have hc : ¬(c = ',' ∨ c = ' ') := by
      rintro (rfl | rfl)
      · exact absurd (hdigits _ List.mem_cons_self) (by decide)
      · exact absurd (hdigits _ List.mem_cons_self) (by decide)
    have hdrop : (c :: ds ++ rest).dropWhile (fun c => decide (c = ',' ∨ c = ' ')) =
        c :: ds ++ rest := List.dropWhile_cons_of_neg (by simpa using hc)
    have hlen : ¬rest.length = (c :: ds ++ rest).length := by
      rw [List.length_append, List.length_cons]
      omega
    rw [List.cons_append, scanRanges]
    · simp only [← List.cons_append, hdrop, hread, if_neg hlen]
      rfl
    · exact List.cons_ne_nil _ _

theorem decimal_natCast (n : Nat) : decimal n = Nat.toDigits 10 n := by
  rw [decimal, if_neg (by omega), Int.toNat_natCast]

/-- What can follow a range. -/
theorem rangesText_next (rs : List (Int × Int)) :
    rangesText true rs = [] ∨ (rangesText true rs).head? = some ',' := by
  cases rs with
  | nil => exact .inl rfl
  | cons r rs => exact .inr rfl

theorem rangesText_ends (rs : List (Int × Int)) : Ends (rangesText true rs) := by
  cases rs with
  | nil => exact Ends.nil
  | cons r rs => exact Ends.cons (by decide) _

theorem rangesText_tail (rs : List (Int × Int)) :
    (rangesText true rs).tail = rangesText false rs := by
  cases rs with
  | nil => rfl
  | cons r rs => rfl

/-- A range, read up to what follows it. -/
theorem scanRanges_run (mem : List Char → Bool) (hmem : ∀ s, mem s = true) (fuel : Nat)
    (set : Bitmap) (hbe : b < e) (he : e < 2 ^ 31) (hends : Ends rest)
    (hrest : rest = [] ∨ rest.head? = some ',') :
    ∃ t, t.cpus = set.cpus ∪ Set.Ico b e ∧
      scanRanges mem (fuel + 2) set (-1) (rangeText b e ++ rest) = 
        afterTurn mem (if e = b + 1 then fuel + 1 else fuel) rest (.next t (-1)) := by
  by_cases hone : e = b + 1
  · obtain ⟨t, ht, hcpus⟩ := listTurn_single set (b := b) (by omega) hrest
    refine ⟨t, ?_, ?_⟩
    · rw [hcpus, hone, Set.insert_eq, Set.union_comm]
      congr 1
      ext x
      simp only [Set.mem_singleton_iff, Set.mem_Ico]
      omega
    · have htext : rangeText b e = Nat.toDigits 10 b := by
        rw [rangeText, if_pos (by omega), decimal_natCast]
      rw [htext, scanRanges_number mem (fuel + 1) set (-1) (by omega) hends, hmem, ht, if_pos hone]
  · obtain ⟨t, ht, hcpus⟩ := listTurn_finish set (b := b) (e := e - 1) (by omega) (by omega) rest
    refine ⟨t, ?_, ?_⟩
    · rw [hcpus]
      congr 1
      ext x
      simp only [Set.mem_Icc, Set.mem_Ico]
      omega
    · have hpred : (e : Int) - 1 = (e - 1 : Nat) := by omega
      have htext : rangeText b e ++ rest =
          Nat.toDigits 10 b ++ '-' :: (Nat.toDigits 10 (e - 1) ++ rest) := by
        rw [rangeText, if_neg (by omega), if_neg (by omega), decimal_natCast, hpred,
          decimal_natCast, List.append_assoc, List.cons_append]
      have hne : Nat.toDigits 10 (e - 1) ++ rest ≠ [] :=
        List.append_ne_nil_of_left_ne_nil Nat.toDigits_ne_nil _
      rw [htext, scanRanges_number mem (fuel + 1) set (-1) (by omega) (Ends.cons (by decide) _),
        listTurn_begin _ _ _ hne]
      change scanRanges mem (fuel + 1) set _ (Nat.toDigits 10 (e - 1) ++ rest) = _
      rw [scanRanges_number mem fuel set _ (by omega) hends, hmem, ht, if_neg hone]

theorem scanRanges_nil (mem : List Char → Bool) (fuel : Nat) (set : Bitmap) (begincpu : Ulong) :
    scanRanges mem fuel set begincpu [] = .ok (true, set) := by
  cases fuel with
  | zero => rfl
  | succ fuel => rfl

/-- After a range, the other ranges are read. -/
theorem afterTurn_next (mem : List Char → Bool) (fuel : Nat) (set : Bitmap)
    (rs : List (Int × Int)) :
    afterTurn mem fuel (rangesText true rs) (.next set (-1)) =
      scanRanges mem fuel set (-1) (rangesText false rs) := by
  rw [← rangesText_tail, afterTurn]
  split
  case isTrue hnil => rw [hnil, List.tail_nil, scanRanges_nil]
  case isFalse => rfl

/-- The ranges behind `prev` are read and added to the numbers up to there. -/
theorem scanRanges_ranges (mem : List Char → Bool) (hmem : ∀ s, mem s = true)
    (hruns : MaximalRuns A top prev rs) (htop : top < 2 ^ 31) (set : Bitmap)
    (hset : set.cpus = {x : Nat | x ≤ prev} ∩ A)
    (hfuel : 2 * rs.length ≤ fuel) :
    ∃ t, scanRanges mem fuel set (-1) (rangesText false rs) = .ok (true, t) ∧ t.cpus = A := by
  induction hruns generalizing set fuel with
  | none gap =>
    refine ⟨set, scanRanges_nil mem fuel set (-1), ?_⟩
    rw [hset, Set.inter_eq_right]
    intro x hx
    by_contra hlt
    exact gap x (Int.not_le.mp hlt) hx
  | @last prev b after bound gap all =>
    rw [List.length_singleton] at hfuel
    obtain ⟨fuel, rfl⟩ : ∃ f, fuel = f + 1 := ⟨fuel - 1, by omega⟩
    have hb : b < 2 ^ 31 := Nat.lt_of_le_of_lt bound htop
    obtain ⟨t, ht, hcpus⟩ := listTurn_last set hb
    refine ⟨t, ?_, ?_⟩
    · have htext : rangesText false [((b : Int), -1)] = Nat.toDigits 10 b ++ ['-'] := by
        rw [rangesText, rangesText, rangeText, if_neg (by omega), if_pos rfl, decimal_natCast,
          List.append_nil]
        rfl
      rw [htext, scanRanges_number mem fuel set (-1) hb (Ends.cons (by decide) _), hmem, ht]
      rfl
    · rw [hcpus, hset]
      ext x
      simp only [Set.mem_union, Set.mem_inter_iff, Set.mem_ofPred_eq, Set.mem_Ici]
      refine ⟨fun h => h.elim And.right (all x), fun hx => ?_⟩
      by_cases hle : b ≤ x
      · exact .inr hle
      · exact .inl ⟨by
          by_contra hlt
          exact gap x (Int.not_le.mp hlt) (Nat.not_le.mp hle) hx, hx⟩
  | @run prev b e rs after nonempty bound gap all maximal rest ih =>
    rw [List.length_cons] at hfuel
    obtain ⟨fuel, rfl⟩ : ∃ f, fuel = f + 2 := ⟨fuel - 2, by omega⟩
    obtain ⟨t, hcpus, hscan⟩ := scanRanges_run mem hmem fuel set nonempty
      (Nat.lt_of_le_of_lt bound htop) (rangesText_ends rs) (rangesText_next rs)
    have ht : t.cpus = {x : Nat | (x : Int) ≤ e - 1} ∩ A := by
      rw [hcpus, hset]
      ext x
      simp only [Set.mem_union, Set.mem_inter_iff, Set.mem_ofPred_eq, Set.mem_Ico]
      constructor
      · rintro (⟨hle, hx⟩ | ⟨hle, hlt⟩)
        · exact ⟨by omega, hx⟩
        · exact ⟨by omega, all x hle hlt⟩
      · rintro ⟨hle, hx⟩
        by_cases hbx : b ≤ x
        · exact .inr ⟨hbx, by omega⟩
        · exact .inl ⟨by
            by_contra hlt
            exact gap x (Int.not_le.mp hlt) (Nat.not_le.mp hbx) hx, hx⟩
    obtain ⟨t', hread, hA⟩ := @ih (if e = b + 1 then fuel + 1 else fuel) t ht (by
      split
      · omega
      · omega)
    refine ⟨t', ?_, hA⟩
    have htext : rangesText false (((b : Int), (e : Int)) :: rs) =
        rangeText b e ++ rangesText true rs := rfl
    rw [htext, hscan, afterTurn_next, hread]

theorem MaximalRuns.length_le (h : MaximalRuns A top prev rs) (hprev : prev ≤ top) :
    rs.length + prev ≤ top := by
  induction h with
  | none gap => simpa using hprev
  | last after bound gap all =>
    rw [List.length_singleton]
    omega
  | run after nonempty bound gap all maximal rest ih =>
    have hrest := ih (by omega)
    rw [List.length_cons]
    omega

theorem decimal_length {n : Int} (hn : 0 ≤ n) (hlt : n < 2 ^ 31) :
    0 < (decimal n).length ∧ (decimal n).length ≤ 10 := by
  rw [decimal, if_neg (by omega)]
  exact ⟨Nat.length_toDigits_pos,
    (Nat.length_toDigits_le_iff (by decide) (by decide)).mpr (by omega)⟩

theorem rangeText_length {b e : Int} (hb : 0 ≤ b) (hb' : b < 2 ^ 31) (he : e = -1 ∨ 0 < e)
    (he' : e < 2 ^ 31) : 0 < (rangeText b e).length ∧ (rangeText b e).length ≤ 21 := by
  have hbegin := decimal_length hb hb'
  unfold rangeText
  split
  · omega
  · split
    · rw [List.length_append, List.length_singleton]
      omega
    case isFalse hne =>
      have hend := @decimal_length (e - 1) (by omega) (by omega)
      rw [List.length_append, List.length_cons]
      omega

/-- No number has more than ten digits, and no range is empty. -/
theorem MaximalRuns.text_length (h : MaximalRuns A top prev rs) (hprev : -1 ≤ prev)
    (htop : top < 2 ^ 31) : 2 * rs.length ≤ (rangesText true rs).length ∧
      (rangesText true rs).length ≤ 22 * rs.length := by
  induction h with
  | none gap => exact ⟨Nat.le_refl _, Nat.le_refl _⟩
  | @last prev b after bound gap all =>
    have hrange := @rangeText_length b (-1) (by omega) (by omega) (.inl rfl) (by omega)
    simp only [rangesText, comma, if_pos, List.length_append, List.length_cons, List.length_nil]
    omega
  | @run prev b e rs after nonempty bound gap all maximal rest ih =>
    have hrest := ih (by omega)
    have hrange := @rangeText_length b e (by omega) (by omega) (by omega) (by omega)
    simp only [rangesText, comma, if_pos, List.length_append, List.length_cons, List.length_nil]
    omega

theorem rangesText_length (rs : List (Int × Int)) :
    (rangesText true rs).length ≤ (rangesText false rs).length + 1 := by
  rw [← rangesText_tail, List.length_tail]
  omega

theorem decimal_chars {n : Int} (hn : 0 ≤ n) : '\x00' ∉ decimal n := by
  rw [decimal, if_neg (by omega)]
  intro hc
  exact absurd ((@ofDigits_toDigits 10 (by decide) (by decide) n.toNat).2 _ hc) (by decide)

theorem rangeText_chars {b e : Int} (hb : 0 ≤ b) (he : e = -1 ∨ 0 < e) :
    '\x00' ∉ rangeText b e := by
  have hbegin := decimal_chars hb
  unfold rangeText
  split
  · exact hbegin
  · split
    · simpa using hbegin
    · have hend := @decimal_chars (e - 1) (by omega)
      simpa using ⟨hbegin, hend⟩

theorem MaximalRuns.chars (h : MaximalRuns A top prev rs) (hprev : -1 ≤ prev) (needcomma : Bool) :
    '\x00' ∉ rangesText needcomma rs := by
  have hcomma (needcomma : Bool) : '\x00' ∉ comma needcomma := by
    cases needcomma with
    | false => decide
    | true => decide
  induction h generalizing needcomma with
  | none gap => exact List.not_mem_nil
  | @last prev b after bound gap all =>
    have hrange := @rangeText_chars b (-1) (by omega) (.inl rfl)
    simp only [rangesText, List.mem_append, List.not_mem_nil, or_false, not_or]
    exact ⟨hcomma needcomma, hrange⟩
  | @run prev b e rs after nonempty bound gap all maximal rest ih =>
    have hrange := @rangeText_chars b e (by omega) (by omega)
    simp only [rangesText, List.mem_append, not_or]
    exact ⟨hcomma needcomma, hrange, ih (by omega) true⟩

/-- A bitmap of no more than 2²⁰ words has a text of ranges. -/
theorem exists_listText (hs : s.ulongs.length ≤ 2 ^ 20) (mem : List Char → Bool)
    (hmem : ∀ s, mem s = true) : ∃ rs, MaximalRuns s.cpus (64 * s.ulongs.length) (-1) rs ∧
      Text s s.listSnprintf (rangesText false rs) fun _ dst => listSscanf mem dst := by
  have hcount := s.count_pos
  have hfits : s.Fits := Nat.lt_of_le_of_lt hs (by decide)
  obtain ⟨rs, hruns, hprints⟩ := @printRanges_prints s (-1) (64 * s.ulongs.length + 1) hfits
    (Int.le_refl _) (by omega) (by omega)
  have hruns_le := hruns.length_le (by omega)
  have hlen := hruns.text_length (Int.le_refl _) (by omega)
  have hlen' := rangesText_length rs
  have hlen'' : (rangesText false rs).length ≤ (rangesText true rs).length := by
    rw [← rangesText_tail, List.length_tail]
    exact Nat.sub_le _ _
  refine ⟨rs, hruns, hprints false [], by omega, ?_, fun _ dst => ?_⟩
  · rintro c hc rfl
    exact hruns.chars (Int.le_refl _) false hc
  · obtain ⟨t, ht, hcpus⟩ := @scanRanges_ranges _ _ _ ((rangesText false rs).length + 1) _ mem hmem
      hruns (by omega) dst.zero (by
        rw [cpus_zero]
        ext x
        simp only [Set.mem_empty_iff_false, Set.mem_inter_iff, Set.mem_ofPred_eq, false_iff]
        omega) (by omega)
    exact ⟨true, t, ht, hcpus⟩

/-- What `hwloc_bitmap_list_asprintf` prints are the maximal runs, and with memory enough
`hwloc_bitmap_list_sscanf` reads them as the same set. -/
theorem list_roundTrip (hs : s.ulongs.length ≤ 2 ^ 20) (junk : Nat → Char)
    (mem : List Char → Bool) (hmem : ∀ s, mem s = true) (dst : Bitmap) :
    ∃ len buf rs, asprintf true junk s.listSnprintf = .ok (some (len, buf)) ∧
      MaximalRuns s.cpus (64 * s.ulongs.length) (-1) rs ∧ cstr buf = rangesText false rs ∧
      ReadBack true dst s (listSscanf mem dst (cstr buf)) := by
  obtain ⟨rs, hruns, htext⟩ := exists_listText hs mem hmem
  refine ⟨_, _, rs, htext.prints.asprintf htext.short, hruns, cstr_append htext.chars [], ?_⟩
  rw [cstr_append htext.chars]
  exact htext.read true dst

theorem sparse_short : sparse.ulongs.length ≤ 2 ^ 20 := show 3 ≤ 2 ^ 20 by decide

theorem list_roundTrip_sparse : ∃ len buf rs,
    asprintf true (fun _ => 'a') sparse.listSnprintf = .ok (some (len, buf)) ∧
      MaximalRuns sparse.cpus (64 * sparse.ulongs.length) (-1) rs ∧
      cstr buf = rangesText false rs ∧
      ReadBack true alloc sparse (listSscanf (fun _ => true) alloc (cstr buf)) :=
  list_roundTrip sparse_short _ _ (fun _ => rfl) _

end LibQuo.Bitmap
