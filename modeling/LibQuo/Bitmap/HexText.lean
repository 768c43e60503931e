import Mathlib.Data.List.DropRight
import LibQuo.Bitmap.Sets
import LibQuo.Lib.CText

/-!
The text of a bitmap in hexadecimal (`bitmap.c`): substrings of 32 bits, from the highest
one down, with commas between them. What is printed is read back as the same set.
-/

namespace LibQuo.Bitmap
open WordSet CText

/-- `"0xf...f"`: everything behind the words is set. -/
def infinitePrefix : List Char := ['0', 'x', 'f', '.', '.', '.', 'f']

/-- The words up to the last one that is not like all behind it. -/
def shown (set : Bitmap) : List Ulong := set.ulongs.rdropWhile fun v => v = tailWord set.infinite

def comma (needcomma : Bool) : List Char := if needcomma then [','] else []

/-- One substring; the last one is printed even if it is empty. -/
def printSubset (needcomma last : Bool) (v : Ulong) (o : Out) : Result Out :=
  if v ≠ 0#64 then emit (comma needcomma ++ '0' :: 'x' :: numeral 16 8 v.toNat) o
  else if last then emit (comma needcomma ++ ['0', 'x', '0']) o
  else if needcomma then emit [','] o
  else pure o

/-- The loop of `hwloc_bitmap_snprintf`; the accumulator gives two substrings. -/
def printSubsets (needcomma : Bool) : List Ulong → Out → Result Out
  | [], o => pure o
  | accum :: words, o => do
    let hi := accum >>> 32
    let o ← printSubset needcomma false hi o
    let needcomma := needcomma || hi ≠ 0#64
    let lo := accum <<< 32 >>> 32
    let o ← printSubset needcomma words.isEmpty lo o
    printSubsets (needcomma || lo ≠ 0#64) words o

def snprintf (set : Bitmap) (o : Out) : Result Out := do
  let o ← if set.infinite then emit infinitePrefix o else pure o
  let o ← printSubsets set.infinite set.shown.reverse o
  if o.ret = 0 then emit ['0', 'x', '0'] o else pure o

/-- `set->ulongs[i] = val`. -/
def putUlong (set : Bitmap) (i : Nat) (val : Ulong) : Result Bitmap :=
  if i < set.ulongs.length then .ok (set.modify fun k v => if k = i then val else v)
  else .error .outOfBounds

/-- The loop of `hwloc_bitmap_sscanf`, with `count` substrings still to come: the result and
the bitmap it leaves. -/
def scanSubsets (set : Bitmap) (accum : Ulong) : Nat → List Char → Result (Bool × Bitmap)
  | _, [] => .ok (true, set)
  | 0, _ :: _ => .error .assertFailed
  | count + 1, current => do
    let (val, next) := strtoul 64 16 current
    let accum := accum ||| val <<< (count * 32 % 64)
    let set ← if count % 2 = 0 then set.putUlong (count / 2) accum else pure set
    let accum := if count % 2 = 0 then 0#64 else accum
    match next with
    | ',' :: current => scanSubsets set accum count current
    | [] => return if 0 < count then (false, set.zero) else (true, set)
    | _ :: _ => return (false, set.zero)

/-- `hwloc_bitmap_reset_by_ulongs`, with `junk` in the words it makes valid. -/
def resetByUlongs (mem : Bool) (junk : Nat → Ulong) (set : Bitmap) (neededCount : Nat)
    (hpos : 0 < neededCount) (hbound : neededCount ≤ 2 ^ 31) : Option Bitmap :=
  set.reset mem neededCount ((List.range neededCount).map junk) false
    (by rwa [List.length_map, List.length_range])
    (by rw [List.length_map, List.length_range]) hbound

/-- How many substrings a string is counted to have; its first character is not looked at. -/
def substrings (string : List Char) : Nat := 1 + string.tail.count ','

/-- The part of `hwloc_bitmap_sscanf` behind the prefix. -/
def scanFrom (mem : Bool) (junk : Nat → Ulong) (set : Bitmap) (infinite : Bool) (count : Nat)
    (hcount : 0 < count ∧ count < 2 ^ 31) (current : List Char) : Result (Bool × Bitmap) :=
  match set.resetByUlongs mem junk ((count + 1) / 2) (by omega) (by omega) with
  | none => .ok (false, set)
  | some set => do
    let (success, set) ← scanSubsets set 0#64 count current
    return (success, if success then { set with infinite := infinite } else set)

theorem substrings_pos {string : List Char} (h : string[7]? = some ',') :
    0 < substrings string - 1 := by
  have hmem : ',' ∈ string.tail := by
    cases string with
    | nil => simp at h
    | cons c string => exact List.mem_of_getElem? h
  have hcount := List.count_pos_iff.mpr hmem
  unfold substrings
  omega

/-- `hwloc_bitmap_sscanf`. The search for commas begins behind the first character, which
has to be there. -/
def sscanf (mem : Bool) (junk : Nat → Ulong) (set : Bitmap) (string : List Char) :
    Result (Bool × Bitmap) :=
  if string = [] then .error .outOfBounds
  else if hcount : substrings string < 2 ^ 31 then
    if infinitePrefix.isPrefixOf string then
      if h : string[7]? = some ',' then
        scanFrom mem junk set true (substrings string - 1)
          ⟨substrings_pos h, by omega⟩ (string.drop 8)
      else .ok (true, set.fill)
    else scanFrom mem junk set false (substrings string)
      ⟨by unfold substrings; omega, hcount⟩ string
  else .error .overflow

/-! ## What is printed -/

def groups : List Ulong → List Ulong
  | [] => []
  | w :: ws => w >>> 32 :: w <<< 32 >>> 32 :: groups ws

def subset (last : Bool) (v : Ulong) : List Char :=
  if v ≠ 0#64 then '0' :: 'x' :: numeral 16 8 v.toNat else if last then ['0', 'x', '0'] else []

def subsets : List Ulong → List Char
  | [] => []
  | v :: vs => ',' :: (subset vs.isEmpty v ++ subsets vs)

/-- The words that substrings are put together to. -/
def join : Ulong → List Ulong → List Ulong
  | _, [] => []
  | accum, v :: vs =>
    if vs.length % 2 = 0 then (accum ||| v) :: join 0#64 vs else join (accum ||| v <<< 32) vs

variable {gs ws : List Ulong} {v w : Ulong} {last : Bool} {done : List Char}
  {s : Bitmap}

theorem groups_length (ws : List Ulong) : (groups ws).length = 2 * ws.length := by
  induction ws with
  | nil => rfl
  | cons w ws ih =>
    rw [groups, List.length_cons, List.length_cons, ih, List.length_cons]
    omega

theorem groups_isEmpty (ws : List Ulong) : (groups ws).isEmpty = ws.isEmpty := by
  cases ws with
  | nil => rfl
  | cons w ws => rfl

/-- Two halves are put together. -/
theorem halves_or (w : Ulong) : w >>> 32 <<< 32 ||| w <<< 32 >>> 32 = w := by
  apply BitVec.eq_of_getLsbD_eq
  intro k hk
  rw [BitVec.getLsbD_or, BitVec.getLsbD_shiftLeft, BitVec.getLsbD_ushiftRight,
    BitVec.getLsbD_ushiftRight, BitVec.getLsbD_shiftLeft]
  by_cases hlow : k < 32
  · have hk' : 32 + k < 64 := by omega
    simp [hlow, hk']
  · have hk' : 32 + (k - 32) = k := by omega
    have hhigh : ¬32 + k < 64 := by omega
    simp [hlow, hk, hk', hhigh]

theorem join_groups (ws : List Ulong) : join 0#64 (groups ws) = ws := by
  induction ws with
  | nil => rfl
  | cons w ws ih =>
    have hlen := groups_length ws
    rw [groups, join, if_neg (by rw [List.length_cons]; omega), join, if_pos (by omega), ih,
      BitVec.zero_or, halves_or]

/-- A first half that is empty is left out. -/
theorem join_low (hw : w >>> 32 = 0#64) (ws : List Ulong) :
    join 0#64 (w <<< 32 >>> 32 :: groups ws) = w :: ws := by
  have hlen := groups_length ws
  have hlow := halves_or w
  rw [hw, BitVec.zero_shiftLeft, BitVec.zero_or] at hlow
  rw [join, if_pos (by omega), join_groups, BitVec.zero_or, hlow]

theorem printSubset_prints (done : List Char) (last : Bool) (v : Ulong) :
    Prints (printSubset true last v) done (',' :: subset last v) := by
  unfold printSubset subset
  split
  · exact Prints.emit done _
  · cases last with
    | true => exact Prints.emit done _
    | false => exact Prints.emit done _

/-- Only the first substring has no comma. -/
theorem printSubset_first (done : List Char) (last : Bool) (hv : v ≠ 0#64) :
    Prints (printSubset false last v) done (subset last v) := by
  have hprint : printSubset false last v = emit (subset last v) := by
    funext o
    rw [printSubset, subset, if_pos hv, if_pos hv]
    rfl
  rw [hprint]
  exact Prints.emit done _

theorem printSubsets_prints (done : List Char) (ws : List Ulong) :
    Prints (printSubsets true ws) done (subsets (groups ws)) := by
  induction ws generalizing done with
  | nil => exact Prints.skip done
  | cons w ws ih =>
    have hgroups : subsets (groups (w :: ws)) = (',' :: subset false (w >>> 32)) ++
        ((',' :: subset ws.isEmpty (w <<< 32 >>> 32)) ++ subsets (groups ws)) := by
      rw [groups, subsets, subsets, groups_isEmpty]
      rfl
    rw [hgroups]
    exact (printSubset_prints _ _ _).seq ((printSubset_prints _ _ _).seq (ih _))

/-- Without a prefix, the text begins with the first half that is not empty. -/
theorem printSubsets_first (hw : w ≠ 0#64) (done : List Char) (ws : List Ulong) :
    ∃ v vs, v ≠ 0#64 ∧ v :: vs <:+ groups (w :: ws) ∧ join 0#64 (v :: vs) = w :: ws ∧
      Prints (printSubsets false (w :: ws)) done (subset vs.isEmpty v ++ subsets vs) := by
  by_cases hhigh : w >>> 32 = 0#64
  · have hlow : w <<< 32 >>> 32 ≠ 0#64 := by
      intro hlow
      have hhalves := halves_or w
      rw [hhigh, hlow, BitVec.zero_shiftLeft, BitVec.zero_or] at hhalves
      exact hw hhalves.symm
    refine ⟨w <<< 32 >>> 32, groups ws, hlow, List.suffix_cons _ _, join_low hhigh ws, ?_⟩
    have hskip : printSubsets false (w :: ws) = fun o =>
        printSubset false ws.isEmpty (w <<< 32 >>> 32) o >>= printSubsets true ws := by
      funext o
      rw [printSubsets, printSubset, hhigh]
      simp [hlow]
    rw [hskip, groups_isEmpty]
    exact (printSubset_first _ _ hlow).seq (printSubsets_prints _ ws)
  · refine ⟨w >>> 32, w <<< 32 >>> 32 :: groups ws, hhigh, List.suffix_refl _,
      join_groups (w :: ws), ?_⟩
    have hcomma : printSubsets false (w :: ws) = fun o =>
        printSubset false false (w >>> 32) o >>= fun o =>
          printSubset true ws.isEmpty (w <<< 32 >>> 32) o >>= printSubsets true ws := by
      funext o
      rw [printSubsets]
      simp [hhigh]
    rw [hcomma, subsets, groups_isEmpty]
    exact (printSubset_first _ _ hhigh).seq ((printSubset_prints _ _ _).seq
      (printSubsets_prints _ ws))

/-! ## What is read back -/

theorem subset_chars {c : Char} (hc : c ∈ subset last v) : isDigit 16 c = true ∨ c = 'x' := by
  unfold subset at hc
  split at hc
  · rcases List.mem_cons.mp hc with rfl | hc
    · exact .inl (by decide)
    · rcases List.mem_cons.mp hc with hc | hc
      · exact .inr hc
      · exact .inl (isDigit_of_mem_numeral (by decide) (by decide) hc)
  · split at hc
    · rcases List.mem_cons.mp hc with rfl | hc
      · exact .inl (by decide)
      · rcases List.mem_cons.mp hc with hc | hc
        · exact .inr hc
        · exact .inl (List.mem_singleton.mp hc ▸ by decide)
    · exact absurd hc List.not_mem_nil

theorem subsets_chars {c : Char} (hc : c ∈ subsets gs) :
    isDigit 16 c = true ∨ c = 'x' ∨ c = ',' := by
  induction gs with
  | nil => exact absurd hc List.not_mem_nil
  | cons v vs ih =>
    rcases List.mem_cons.mp hc with hc | hc
    · exact .inr (.inr hc)
    · rcases List.mem_append.mp hc with hc | hc
      · exact (subset_chars hc).imp_right .inl
      · exact ih hc

theorem subset_commas (last : Bool) (v : Ulong) : (subset last v).count ',' = 0 := by
  rw [List.count_eq_zero]
  intro hc
  rcases subset_chars hc with hc | hc
  · exact absurd hc (by decide)
  · exact absurd hc (by decide)

theorem subsets_commas (gs : List Ulong) : (subsets gs).count ',' = gs.length := by
  induction gs with
  | nil => rfl
  | cons v vs ih =>
    rw [subsets, List.count_cons_self, List.count_append, subset_commas, ih, Nat.zero_add,
      List.length_cons]

theorem subset_length (last : Bool) (v : Ulong) (hv : v.toNat < 2 ^ 32) :
    (subset last v).length ≤ 10 := by
  unfold subset
  split
  · rw [List.length_cons, List.length_cons, length_numeral (by decide) (by decide)
      (show v.toNat < 16 ^ 8 from hv)]
  · split
    · decide
    · decide

theorem subsets_ends (gs : List Ulong) : Ends (subsets gs) := by
  cases gs with
  | nil => exact Ends.nil
  | cons v vs => exact Ends.cons (by decide) _

/-- One substring is read, up to the next comma. -/
theorem strtoul_subset (v : Ulong) (vs : List Ulong) :
    strtoul 64 16 (subset vs.isEmpty v ++ subsets vs) = (v, subsets vs) := by
  unfold subset
  split
  case isTrue =>
    have hread := @strtoul_hex 64 16 8 _ _ (.inr rfl) v.isLt (subsets_ends vs)
    rw [BitVec.ofNat_toNat, BitVec.setWidth_eq] at hread
    exact hread
  case isFalse hv =>
    rw [not_not.mp hv]
    cases vs with
    | nil => decide
    | cons u us =>
      exact strtoul_nothing (by decide) (by decide) (by decide) (by decide) (by decide) _

theorem subset_append_ne_nil (v : Ulong) (vs : List Ulong) :
    subset vs.isEmpty v ++ subsets vs ≠ [] := by
  cases vs with
  | nil =>
    unfold subset
    split
    · exact List.cons_ne_nil _ _
    · exact List.cons_ne_nil _ _
  | cons u us => exact List.append_ne_nil_of_right_ne_nil _ (List.cons_ne_nil _ _)

theorem putUlong_ok {i : Nat} (hi : i < s.ulongs.length) (val : Ulong) :
    ∃ t, s.putUlong i val = .ok t ∧ t.ulongs = s.ulongs.set i val ∧ t.infinite = s.infinite := by
  refine ⟨_, if_pos hi, ?_, rfl⟩
  apply List.ext_getElem
  · simp [modify]
  · intro k hk hk'
    simp only [modify, List.getElem_mapIdx, List.getElem_set]
    by_cases hik : i = k
    · rw [if_pos hik.symm, if_pos hik]
    · rw [if_neg (Ne.symm hik), if_neg hik]

/-- One turn of the loop on what is printed. -/
theorem scanSubsets_turn (set : Bitmap) (accum v : Ulong) (vs : List Ulong) :
    scanSubsets set accum (v :: vs).length (subsets (v :: vs)).tail = (do
      let set ← if vs.length % 2 = 0
        then set.putUlong (vs.length / 2) (accum ||| v <<< (vs.length * 32 % 64)) else pure set
      scanSubsets set (if vs.length % 2 = 0 then 0#64 else accum ||| v <<< (vs.length * 32 % 64))
        vs.length (subsets vs).tail) := by
  have hread := strtoul_subset v vs
  have hne := subset_append_ne_nil v vs
  change scanSubsets set accum (vs.length + 1) (subset vs.isEmpty v ++ subsets vs) = _
  generalize subset vs.isEmpty v ++ subsets vs = current at *
  cases current with
  | nil => exact absurd rfl hne
  | cons c current =>
    simp only [scanSubsets, hread]
    cases vs with
    | nil => rfl
    | cons u us => rfl

theorem drop_set_self {ulongs : List Ulong} {i : Nat} (hi : i < ulongs.length) (v : Ulong) :
    (ulongs.set i v).drop i = v :: ulongs.drop (i + 1) := by
  rw [List.drop_set, if_neg (Nat.lt_irrefl _), Nat.sub_self, List.drop_eq_getElem_cons hi,
    List.set_cons_zero]

/-- What is printed of substrings is put together to their words. -/
theorem scanSubsets_subsets (gs : List Ulong) (set : Bitmap) (accum : Ulong)
    (hlen : (gs.length + 1) / 2 ≤ set.ulongs.length) :
    ∃ set', scanSubsets set accum gs.length (subsets gs).tail = .ok (true, set') ∧
      set'.ulongs = (join accum gs).reverse ++ set.ulongs.drop ((gs.length + 1) / 2) := by
  induction gs generalizing set accum with
  | nil => exact ⟨set, rfl, rfl⟩
  | cons v vs ih =>
    rw [List.length_cons] at hlen
    rw [scanSubsets_turn, List.length_cons, join]
    by_cases heven : vs.length % 2 = 0
    · have hshift : vs.length * 32 % 64 = 0 := by omega
      have hplace : vs.length / 2 < set.ulongs.length := by omega
      obtain ⟨set₁, hput, hulongs, -⟩ := putUlong_ok hplace (accum ||| v)
      obtain ⟨set', hscan, hulongs'⟩ := ih set₁ 0#64 (by rw [hulongs, List.length_set]; omega)
      refine ⟨set', ?_, ?_⟩
      · rw [if_pos heven, if_pos heven, hshift, BitVec.shiftLeft_zero, hput]
        exact hscan
      · have hvs : (vs.length + 1) / 2 = vs.length / 2 := by omega
        have hgs : (vs.length + 1 + 1) / 2 = vs.length / 2 + 1 := by omega
        rw [hulongs', hulongs, if_pos heven, List.reverse_cons, List.append_assoc, hvs, hgs,
          drop_set_self hplace, List.singleton_append]
    · have hshift : vs.length * 32 % 64 = 32 := by omega
      obtain ⟨set', hscan, hulongs'⟩ := ih set (accum ||| v <<< 32) (by omega)
      refine ⟨set', ?_, ?_⟩
      · rw [if_neg heven, if_neg heven, hshift]
        exact hscan
      · have hgs : (vs.length + 1 + 1) / 2 = (vs.length + 1) / 2 := by omega
        rw [hulongs', if_neg heven, hgs]

/-- Words that only repeat what is behind them do not matter. -/
theorem word_rdropWhile (ws : List Ulong) (inf : Bool) (i : Nat) :
    word (ws.rdropWhile fun v => v = tailWord inf) inf i = word ws inf i := by
  induction ws using List.reverseRecOn with
  | nil => rfl
  | append_singleton ws v ih =>
    by_cases hv : v = tailWord inf
    · rw [List.rdropWhile_concat_pos _ _ _ (by simpa using hv), ih]
      by_cases hi : i < ws.length
      · rw [word_append_of_lt hi, word_of_lt hi]
      · have hi := Nat.not_lt.mp hi
        rw [word_append_of_le hi, word_of_le hi, word, hv]
        cases hk : i - ws.length with
        | zero => rfl
        | succ k => rfl
    · rw [List.rdropWhile_concat_neg _ _ _ (by simpa using hv)]

/-- A bitmap of the words that are shown, or of one word that is like all behind it. -/
theorem cpus_of_shown {t : Bitmap} (hinf : t.infinite = s.infinite)
    (h : t.ulongs = s.shown ∨ s.shown = [] ∧ t.ulongs = [tailWord s.infinite]) :
    t.cpus = s.cpus := by
  rw [cpus_eq_iff]
  intro i
  have hshown : word s.shown s.infinite i = s.readulong i := word_rdropWhile _ _ i
  rcases h with h | ⟨hnone, h⟩
  · rw [readulong, h, hinf, hshown]
  · rw [← hshown, readulong, h, hinf, hnone, word, word]
    cases i with
    | zero => rfl
    | succ i => rfl

/-- How a text that was printed of `s` is read into `dst`: as the same set, unless there is
no memory. -/
def ReadBack (mem : Bool) (dst s : Bitmap) (r : Result (Bool × Bitmap)) : Prop :=
  ∃ success t, r = .ok (success, t) ∧ if success then t.cpus = s.cpus else mem = false ∧ t = dst

variable {mem : Bool} {dst : Bitmap} {junk : Nat → Ulong}

theorem enlarge_ne_none {allocated neededCount : Nat} :
    enlargeByUlongs true allocated neededCount ≠ none := by
  unfold enlargeByUlongs
  dsimp only
  split
  · simp
  · simp

/-- With memory, a bitmap can be made as large as needed. -/
theorem reset_isSome {neededCount : Nat} {ulongs : List Ulong} {infinite : Bool}
    {hpos : 0 < ulongs.length} {hle : ulongs.length ≤ neededCount}
    {hbound : neededCount ≤ 2 ^ 31} :
    ∃ t, dst.reset true neededCount ulongs infinite hpos hle hbound = some t := by
  unfold reset
  split
  case h_1 h => exact absurd h enlarge_ne_none
  case h_2 => exact ⟨_, rfl⟩

theorem resetByUlongs_none {neededCount : Nat} {hpos : 0 < neededCount}
    {hbound : neededCount ≤ 2 ^ 31}
    (h : dst.resetByUlongs mem junk neededCount hpos hbound = none) : mem = false := by
  cases mem with
  | false => rfl
  | true =>
    obtain ⟨t, ht⟩ : ∃ t, dst.resetByUlongs true junk neededCount hpos hbound = some t :=
      reset_isSome
    exact absurd (ht.symm.trans h) (by simp)

/-- Behind the prefix, substrings are read into the words that they are of. -/
theorem scanFrom_readBack (gs : List Ulong)
    (hcount : 0 < gs.length ∧ gs.length < 2 ^ 31)
    (hshown : (join 0#64 gs).reverse = s.shown ∨
      s.shown = [] ∧ (join 0#64 gs).reverse = [tailWord s.infinite]) :
    ReadBack mem dst s (scanFrom mem junk dst s.infinite gs.length hcount (subsets gs).tail) := by
  unfold scanFrom
  split
  case h_1 hreset => exact ⟨false, dst, rfl, resetByUlongs_none hreset, rfl⟩
  case h_2 set hreset =>
    obtain ⟨hulongs, -⟩ := reset_eq_some hreset
    have hlen : set.ulongs.length = (gs.length + 1) / 2 := by
      rw [hulongs, List.length_map, List.length_range]
    obtain ⟨set', hscan, hulongs'⟩ := scanSubsets_subsets gs set 0#64 (Nat.le_of_eq hlen.symm)
    rw [List.drop_of_length_le (Nat.le_of_eq hlen), List.append_nil] at hulongs'
    refine ⟨true, { set' with infinite := s.infinite }, by rw [hscan]; rfl, ?_⟩
    exact cpus_of_shown rfl (by rwa [hulongs'])

/-- The text of a bitmap: how it is printed, and how it is read. -/
structure Text (s : Bitmap) (p : Out → Result Out) (text : List Char)
    (scan : Bool → Bitmap → List Char → Result (Bool × Bitmap)) : Prop where
  prints : Prints p [] text
  short : text.length + 1 < 2 ^ 31
  chars : ∀ c ∈ text, c ≠ '\x00'
  read : ∀ mem dst, ReadBack mem dst s (scan mem dst text)

theorem subsets_length (gs : List Ulong) (h : ∀ v ∈ gs, v.toNat < 2 ^ 32) :
    (subsets gs).length ≤ 11 * gs.length := by
  induction gs with
  | nil => exact Nat.le_refl 0
  | cons v vs ih =>
    have hv := subset_length vs.isEmpty v (h v List.mem_cons_self)
    have hvs := ih fun u hu => h u (List.mem_cons_of_mem _ hu)
    rw [subsets, List.length_cons, List.length_append, List.length_cons]
    omega

theorem groups_lt (ws : List Ulong) : ∀ v ∈ groups ws, v.toNat < 2 ^ 32 := by
  induction ws with
  | nil => exact fun v hv => absurd hv List.not_mem_nil
  | cons w ws ih =>
    intro v hv
    have hw := w.isLt
    rcases List.mem_cons.mp hv with rfl | hv
    · rw [BitVec.toNat_ushiftRight, Nat.shiftRight_eq_div_pow]
      omega
    · rcases List.mem_cons.mp hv with rfl | hv
      · rw [BitVec.toNat_ushiftRight, Nat.shiftRight_eq_div_pow, BitVec.toNat_shiftLeft]
        omega
      · exact ih v hv

theorem shown_length (s : Bitmap) : s.shown.length ≤ s.ulongs.length :=
  (List.rdropWhile_prefix _ _).length_le

/-- The last word that is shown is not like those behind it. -/
theorem shown_last (h : s.shown.reverse = w :: ws) : w ≠ tailWord s.infinite := by
  have hshown : s.shown = ws.reverse ++ [w] := by
    rw [← List.reverse_cons, ← h, List.reverse_reverse]
  have hne : s.shown ≠ [] := by
    rw [hshown]
    exact List.append_ne_nil_of_right_ne_nil _ (List.cons_ne_nil _ _)
  have hlast := List.rdropWhile_last_not (fun v => decide (v = tailWord s.infinite)) s.ulongs hne
  intro hw
  apply hlast
  have hgetLast : s.shown.getLast hne = w := by
    simp only [hshown, List.getLast_append_singleton]
  exact decide_eq_true (hgetLast.trans hw)

/-- With nothing set behind its words, a bitmap is printed without the prefix. -/
theorem snprintf_finite (hinf : s.infinite = false) :
    ∃ v vs, (v ≠ 0#64 ∨ vs = []) ∧ (v :: vs).length ≤ 2 * s.ulongs.length ∧
      (∀ u ∈ v :: vs, u.toNat < 2 ^ 32) ∧
      Prints s.snprintf [] (subsets (v :: vs)).tail ∧
      ((join 0#64 (v :: vs)).reverse = s.shown ∨
        s.shown = [] ∧ (join 0#64 (v :: vs)).reverse = [tailWord s.infinite]) := by
  have hcount := s.count_pos
  have hsnprintf : s.snprintf = fun o => printSubsets false s.shown.reverse o >>= fun o =>
      if o.ret = 0 then emit ['0', 'x', '0'] o else pure o := by
    funext o
    rw [snprintf, hinf]
    rfl
  rw [hsnprintf]
  cases hshown : s.shown.reverse with
  | nil =>
    have hnone : s.shown = [] := List.reverse_eq_nil_iff.mp hshown
    refine ⟨0#64, [], .inr rfl, ?_, fun u hu => ?_, ?_, .inr ⟨hnone, by rw [hinf]; rfl⟩⟩
    · simp only [List.length_singleton]
      omega
    · rw [List.mem_singleton.mp hu]
      exact Nat.two_pow_pos 32
    · exact (Prints.skip []).seq (Prints.orElse [] ['0', 'x', '0'])
  | cons w ws =>
    have hw : w ≠ 0#64 := by
      have hlast := shown_last hshown
      rwa [hinf] at hlast
    obtain ⟨v, vs, hv, hsuffix, hjoin, hprints⟩ := printSubsets_first hw [] ws
    have hlen := hsuffix.length_le
    have hwords := congrArg List.length hshown
    have hle := s.shown_length
    rw [List.length_reverse] at hwords
    rw [groups_length] at hlen
    refine ⟨v, vs, .inl hv, by omega, fun u hu => groups_lt (w :: ws) u (hsuffix.subset hu), ?_,
      .inl ?_⟩
    · have horElse := Prints.orElse (subset vs.isEmpty v ++ subsets vs) ['0', 'x', '0']
      rw [if_neg (subset_append_ne_nil v vs)] at horElse
      have hall := hprints.seq horElse
      rw [List.append_nil] at hall
      exact hall
    · rw [hjoin, ← hshown, List.reverse_reverse]

/-- With everything behind its words set, a bitmap is printed with the prefix. -/
theorem snprintf_infinite (hinf : s.infinite = true) :
    Prints s.snprintf [] (infinitePrefix ++ subsets (groups s.shown.reverse)) := by
  have hsnprintf : s.snprintf = fun o => emit infinitePrefix o >>= fun o =>
      printSubsets true s.shown.reverse o >>= fun o =>
        if o.ret = 0 then emit ['0', 'x', '0'] o else pure o := by
    funext o
    rw [snprintf, hinf]
    rfl
  have horElse := Prints.orElse (infinitePrefix ++ subsets (groups s.shown.reverse)) ['0', 'x', '0']
  rw [if_neg (by exact List.cons_ne_nil _ _)] at horElse
  have hall := (Prints.emit [] infinitePrefix).seq
    ((printSubsets_prints infinitePrefix s.shown.reverse).seq horElse)
  rw [List.append_nil] at hall
  rw [hsnprintf]
  exact hall

theorem subset_head (h : v ≠ 0#64 ∨ last = true) : ∃ s, subset last v = '0' :: s := by
  unfold subset
  split
  · exact ⟨_, rfl⟩
  case isFalse hv =>
    rw [if_pos (h.resolve_left hv)]
    exact ⟨_, rfl⟩

/-- A text of hexadecimal substrings does not begin with `0xf...f`. -/
theorem not_infinitePrefix (gs : List Ulong) :
    infinitePrefix.isPrefixOf (subsets gs).tail = false := by
  rw [Bool.eq_false_iff]
  intro h
  have hdot : '.' ∈ (subsets gs).tail :=
    (List.isPrefixOf_iff_prefix.mp h).subset (by decide)
  rcases subsets_chars (List.mem_of_mem_tail hdot) with hdot | hdot | hdot
  · exact absurd hdot (by decide)
  · exact absurd hdot (by decide)
  · exact absurd hdot (by decide)

theorem infinitePrefix_not_nul : ∀ c ∈ infinitePrefix, c ≠ '\x00' := by simp [infinitePrefix]

theorem subsets_not_nul (gs : List Ulong) : ∀ c ∈ subsets gs, c ≠ '\x00' := by
  rintro c hc rfl
  rcases subsets_chars hc with hc | hc | hc
  · exact absurd hc (by decide)
  · exact absurd hc (by decide)
  · exact absurd hc (by decide)

/-- A text is printed whole into memory of its own, and read back from there. -/
theorem Text.roundTrip {p : Out → Result Out} {text : List Char}
    {scan : Bool → Bitmap → List Char → Result (Bool × Bitmap)} (h : Text s p text scan)
    (junk : Nat → Char) (mem : Bool) (dst : Bitmap) :
    ∃ len buf, asprintf true junk p = .ok (some (len, buf)) ∧
      ReadBack mem dst s (scan mem dst (cstr buf)) := by
  refine ⟨_, _, h.prints.asprintf h.short, ?_⟩
  rw [cstr_append h.chars]
  exact h.read mem dst

/-- A bitmap has a text in hexadecimal. -/
theorem exists_hexText (hs : s.Fits) (junk : Nat → Ulong) :
    ∃ text, Text s s.snprintf text fun mem dst => sscanf mem junk dst := by
  unfold Fits at hs
  cases hinf : s.infinite with
  | false =>
    obtain ⟨v, vs, hv, hlen, hlt, hprints, hshown⟩ := snprintf_finite hinf
    have hlength := subsets_length _ hlt
    refine ⟨(subsets (v :: vs)).tail, hprints, ?_, ?_, fun mem dst => ?_⟩
    · rw [List.length_tail]
      omega
    · exact fun c hc => subsets_not_nul (v :: vs) c (List.mem_of_mem_tail hc)
    · have hcount : substrings (subsets (v :: vs)).tail = (v :: vs).length := by
        obtain ⟨digits, hhead⟩ := @subset_head v vs.isEmpty
          (hv.imp_right fun h => by rw [h]; rfl)
        have hcommas := subset_commas vs.isEmpty v
        rw [hhead, List.count_cons_of_ne (by decide)] at hcommas
        rw [substrings, subsets, List.tail_cons, hhead, List.cons_append, List.tail_cons,
          List.count_append, hcommas, subsets_commas, List.length_cons]
        omega
      have hne : (subsets (v :: vs)).tail ≠ [] := subset_append_ne_nil v vs
      have hread := @scanFrom_readBack s mem dst junk (v :: vs)
        ⟨Nat.succ_pos _, by omega⟩ hshown
      have hprefix : ¬infinitePrefix.isPrefixOf (subsets (v :: vs)).tail = true := by
        rw [not_infinitePrefix]
        exact Bool.false_ne_true
      rw [sscanf, if_neg hne, dif_pos (by omega), if_neg hprefix]
      simp only [hcount]
      rw [hinf] at hread
      exact hread
  | true =>
    have hprints := snprintf_infinite hinf
    have hlength := subsets_length _ (groups_lt s.shown.reverse)
    have hle := s.shown_length
    rw [groups_length, List.length_reverse] at hlength
    refine ⟨_, hprints, ?_, ?_, fun mem dst => ?_⟩
    · rw [List.length_append]
      change 7 + _ + 1 < _
      omega
    · intro c hc
      rcases List.mem_append.mp hc with hc | hc
      · exact infinitePrefix_not_nul c hc
      · exact subsets_not_nul _ c hc
    · cases hshown : s.shown.reverse with
      | nil =>
        have hnone : s.shown = [] := List.reverse_eq_nil_iff.mp hshown
        refine ⟨true, dst.fill, rfl, cpus_of_shown hinf.symm (.inr ⟨hnone, ?_⟩)⟩
        rw [hinf]
        rfl
      | cons w ws =>
        have hwords := congrArg List.length hshown
        have hgroups := groups_length (w :: ws)
        rw [List.length_reverse] at hwords
        have hcount : substrings (infinitePrefix ++ subsets (groups (w :: ws))) - 1 =
            (groups (w :: ws)).length := by
          have htail : (infinitePrefix ++ subsets (groups (w :: ws))).tail =
              infinitePrefix.tail ++ subsets (groups (w :: ws)) := rfl
          rw [substrings, htail, List.count_append, subsets_commas, Nat.add_sub_cancel_left]
          exact Nat.zero_add _
        have hread := @scanFrom_readBack s mem dst junk
          (groups (w :: ws)) ⟨by rw [hgroups]; exact Nat.succ_pos _, by omega⟩
          (.inl (by rw [join_groups, ← hshown, List.reverse_reverse]))
        have hcomma : (infinitePrefix ++ subsets (groups (w :: ws)))[7]? = some ',' := rfl
        have hprefix : infinitePrefix.isPrefixOf (infinitePrefix ++ subsets (groups (w :: ws))) =
            true := List.isPrefixOf_iff_prefix.mpr (List.prefix_append _ _)
        have hdrop : (infinitePrefix ++ subsets (groups (w :: ws))).drop 8 =
            (subsets (groups (w :: ws))).tail := rfl
        have hne : infinitePrefix ++ subsets (groups (w :: ws)) ≠ [] := List.cons_ne_nil _ _
        rw [sscanf, if_neg hne, dif_pos (by omega), if_pos hprefix,
          dif_pos hcomma, hdrop]
        simp only [hcount]
        rw [hinf] at hread
        exact hread

/-- What `hwloc_bitmap_asprintf` prints of a bitmap, `hwloc_bitmap_sscanf` reads as the same
set, whatever bitmap it reads into. -/
theorem hex_roundTrip (hs : s.Fits) (junk : Nat → Char) (ulongs : Nat → Ulong) (mem : Bool)
    (dst : Bitmap) : ∃ len buf, asprintf true junk s.snprintf = .ok (some (len, buf)) ∧
      ReadBack mem dst s (sscanf mem ulongs dst (cstr buf)) := by
  obtain ⟨text, htext⟩ := exists_hexText hs ulongs
  exact htext.roundTrip junk mem dst

/-- Words with empty halves between them, and everything behind them set. -/
def sparse : Bitmap :=
  ⟨[0x5#64, 0#64, 0xdeadbeef00000001#64], 4, true, by decide, by decide, by decide⟩

theorem sparse_fits : sparse.Fits := show 3 < 2 ^ 25 by decide

theorem hex_roundTrip_sparse : ∃ len buf,
    asprintf true (fun _ => 'a') sparse.snprintf = .ok (some (len, buf)) ∧
      ReadBack false alloc sparse (sscanf false (fun _ => 0x77#64) alloc (cstr buf)) :=
  hex_roundTrip sparse_fits _ _ _ _

end LibQuo.Bitmap
