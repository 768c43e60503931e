import LibQuo.Bind.Stack
import LibQuo.Bitmap.HexScan
import LibQuo.Bitmap.ListText
import LibQuo.Bitmap.Runs

/-!
The third text of a bitmap (`bitmap.c`), the one of `taskset`: one hexadecimal number. What
all printers have in common: they write only into the buffer that they are given.
-/

namespace LibQuo.Bitmap
open WordSet CText

/-- The words up to the last one that is not like all behind it; with nothing set behind
them, the first one in any case. -/
def tasksetWords (set : Bitmap) : List Ulong :=
  if set.infinite then set.shown
  else match set.ulongs with
    | [] => []
    | v :: vs => v :: vs.rdropWhile fun v => v = 0#64

/-- The loop of `hwloc_bitmap_taskset_snprintf`. -/
def printWords (started : Bool) : List Ulong → Out → Result Out
  | [], o => pure o
  | val :: words, o =>
    if started then emit (numeral 16 16 val.toNat) o >>= printWords true words
    else if val ≠ 0#64 ∨ words = [] then
      emit ('0' :: 'x' :: numeral 16 1 val.toNat) o >>= printWords true words
    else printWords false words o

def tasksetSnprintf (set : Bitmap) (o : Out) : Result Out := do
  let o ← if set.infinite then emit infinitePrefix o else pure o
  let o ← printWords set.infinite set.tasksetWords.reverse o
  if o.ret = 0 then emit ['0', 'x', '0'] o else pure o

/-- The loop of `hwloc_bitmap_taskset_sscanf`: digits for one word at a time, from the last
word down. -/
def scanWords (set : Bitmap) : Nat → List Char → Result (Bool × Bitmap)
  | _, [] => .ok (true, set)
  | 0, _ :: _ => .error .outOfBounds
  | count + 1, current =>
    let tmpchars := if current.length % 16 = 0 then 16 else current.length % 16
    let (val, next) := strtoul 64 16 (current.take tmpchars)
    if next ≠ [] then .ok (false, set.zero)
    else set.putUlong count val >>= fun set => scanWords set count (current.drop tmpchars)

def tasksetSscanf (mem : Bool) (junk : Nat → Ulong) (set : Bitmap) (string : List Char) :
    Result (Bool × Bitmap) :=
  let infinite := infinitePrefix.isPrefixOf string
  let current := if infinite then string.drop 7
    else if ['0', 'x'].isPrefixOf string then string.drop 2 else string
  if hne : current = [] then .ok (true, if infinite then set.fill else set.zero)
  else if hlen : current.length * 4 + 63 < 2 ^ 31 then
    (set.resetByUlongs mem junk ((current.length * 4 + 63) / 64)
      (by have := List.length_pos_iff.mpr hne; omega) (by omega)).elim (.ok (false, set))
      fun set => scanWords set ((current.length * 4 + 63) / 64) current >>= fun r =>
        return (r.1, if r.1 then { r.2 with infinite := infinite } else r.2)
  else .error .overflow

/-! ## What is printed -/

def fullWords (ws : List Ulong) : List Char := ws.flatMap fun w => numeral 16 16 w.toNat

variable {s set dst : Bitmap} {ws : List Ulong} {w : Ulong} {mem : Bool} {junk : Nat → Ulong}

theorem printWords_prints (done : List Char) (ws : List Ulong) :
    Prints (printWords true ws) done (fullWords ws) := by
  induction ws generalizing done with
  | nil => exact Prints.skip done
  | cons w ws ih => exact (Prints.emit done _).seq (ih _)

theorem printWords_first (done : List Char) (hw : w ≠ 0#64 ∨ ws = []) :
    Prints (printWords false (w :: ws)) done
      ('0' :: 'x' :: (numeral 16 1 w.toNat ++ fullWords ws)) := by
  have hstart : printWords false (w :: ws) = fun o =>
      emit ('0' :: 'x' :: numeral 16 1 w.toNat) o >>= printWords true ws := by
    funext o
    rw [printWords, if_neg Bool.false_ne_true, if_pos hw]
  rw [hstart]
  exact (Prints.emit done ('0' :: 'x' :: numeral 16 1 w.toNat)).seq (printWords_prints _ ws)

theorem length_fullWords (ws : List Ulong) : (fullWords ws).length = 16 * ws.length := by
  induction ws with
  | nil => rfl
  | cons w ws ih =>
    have hw : (numeral 16 16 w.toNat).length = 16 :=
      length_numeral (by decide) (by decide) (show w.toNat < 16 ^ 16 from w.isLt)
    rw [fullWords, List.flatMap_cons, List.length_append, hw, List.length_cons]
    change 16 + (fullWords ws).length = _
    rw [ih]
    omega

theorem fullWords_digits {c : Char} (hc : c ∈ fullWords ws) : isDigit 16 c = true := by
  obtain ⟨w, -, hw⟩ := List.mem_flatMap.mp hc
  exact isDigit_of_mem_numeral (by decide) (by decide) hw

/-! ## What is read back -/

theorem numeral_length_pos (base width n : Nat) : 0 < (numeral base width n).length :=
  List.length_pos_iff.mpr numeral_ne_nil

/-- A word has no more than 16 digits. -/
theorem word_length_le {width : Nat} (hwidth : width ≤ 16) (w : Ulong) :
    (numeral 16 width w.toNat).length ≤ 16 := by
  have hlen : (Nat.toDigits 16 w.toNat).length ≤ 16 :=
    (Nat.length_toDigits_le_iff (by decide) (by decide)).mpr (show w.toNat < 16 ^ 16 from w.isLt)
  rw [numeral, List.leftpad, List.length_append, List.length_replicate]
  omega

/-- The digits of one word are read and written. -/
theorem scanWords_turn {width : Nat} (hwidth : width ≤ 16) (set : Bitmap) (w : Ulong)
    (ws : List Ulong) :
    scanWords set (ws.length + 1) (numeral 16 width w.toNat ++ fullWords ws) =
      set.putUlong ws.length w >>= fun set => scanWords set ws.length (fullWords ws) := by
  have hpos := numeral_length_pos 16 width w.toNat
  have hle := word_length_le hwidth w
  have hfull := length_fullWords ws
  have hread := @strtoul_numeral 64 16 width w.toNat [] (by decide) (by decide) w.isLt Ends.nil
  rw [List.append_nil, BitVec.ofNat_toNat, BitVec.setWidth_eq] at hread
  generalize numeral 16 width w.toNat = ds at *
  have hchars : (if (ds ++ fullWords ws).length % 16 = 0 then 16
      else (ds ++ fullWords ws).length % 16) = ds.length := by
    rw [List.length_append]
    split
    · omega
    · omega
  cases ds with
  | nil => exact absurd hpos (Nat.lt_irrefl 0)
  | cons c ds =>
    rw [List.cons_append, scanWords]
    · simp only [← List.cons_append, hchars, List.take_left, List.drop_left, hread]
      rfl
    · exact List.cons_ne_nil _ _

/-- All words are written, up to the first one. -/
theorem scanWords_fullWords (set : Bitmap) (ws : List Ulong)
    (hlen : ws.length ≤ set.ulongs.length) :
    ∃ set', scanWords set ws.length (fullWords ws) = .ok (true, set') ∧
      set'.ulongs = ws.reverse ++ set.ulongs.drop ws.length := by
  induction ws generalizing set with
  | nil => exact ⟨set, rfl, rfl⟩
  | cons w ws ih =>
    rw [List.length_cons] at hlen
    obtain ⟨set₁, hput, hulongs, -⟩ := @putUlong_ok set ws.length hlen w
    obtain ⟨set', hscan, hulongs'⟩ := ih set₁ (by rw [hulongs, List.length_set]; omega)
    refine ⟨set', ?_, ?_⟩
    · have hturn := scanWords_turn (Nat.le_refl 16) set w ws
      rw [hput] at hturn
      exact hturn.trans hscan
    · rw [hulongs', hulongs, drop_set_self hlen, List.reverse_cons, List.append_assoc,
        List.singleton_append, List.length_cons]

theorem scanWords_words {width : Nat} (hwidth : width ≤ 16) (set : Bitmap) (w : Ulong)
    (ws : List Ulong) (hlen : ws.length + 1 = set.ulongs.length) :
    ∃ set', scanWords set (ws.length + 1) (numeral 16 width w.toNat ++ fullWords ws) =
        .ok (true, set') ∧ set'.ulongs = (w :: ws).reverse := by
  have hlt : ws.length < set.ulongs.length := by omega
  obtain ⟨set₁, hput, hulongs, -⟩ := @putUlong_ok set ws.length hlt w
  obtain ⟨set', hscan, hulongs'⟩ := scanWords_fullWords set₁ ws (by
    rw [hulongs, List.length_set]
    omega)
  refine ⟨set', ?_, ?_⟩
  · rw [scanWords_turn hwidth, hput]
    exact hscan
  · rw [hulongs', hulongs, drop_set_self hlt, List.drop_of_length_le (by omega),
      List.reverse_cons]

/-- The words that are printed are those of the set. -/
theorem cpus_of_tasksetWords {t : Bitmap} (hinf : t.infinite = s.infinite)
    (h : t.ulongs = s.tasksetWords ∨ s.tasksetWords = [] ∧ t.ulongs = [tailWord s.infinite]) :
    t.cpus = s.cpus := by
  cases hs : s.infinite with
  | true =>
    have hwords : s.tasksetWords = s.shown := by rw [tasksetWords, if_pos hs]
    rw [hwords] at h
    exact cpus_of_shown hinf h
  | false =>
    have hcount := s.count_pos
    cases hulongs : s.ulongs with
    | nil =>
      rw [hulongs] at hcount
      exact absurd hcount (Nat.lt_irrefl 0)
    | cons v vs =>
      have hwords : s.tasksetWords = v :: vs.rdropWhile fun v => v = 0#64 := by
        rw [tasksetWords, hs, hulongs]
        rfl
      rw [hwords] at h
      rw [cpus_eq_iff]
      intro i
      rw [readulong, readulong, h.resolve_right fun h => List.cons_ne_nil _ _ h.1, hinf, hs,
        hulongs]
      cases i with
      | zero => rfl
      | succ i => exact word_rdropWhile vs false i

/-- What is left of the string once the prefix is off is read into its words. -/
theorem tasksetSscanf_words (w : Ulong) (ws : List Ulong) {width : Nat} (hwidth : width ≤ 16)
    {text : List Char}
    (hlen : ws.length + 1 ≤ s.ulongs.length) (hs : s.Fits)
    (hwords : (w :: ws).reverse = s.tasksetWords)
    (hinf : infinitePrefix.isPrefixOf text = s.infinite)
    (hcurrent : (if s.infinite then text.drop 7
      else if ['0', 'x'].isPrefixOf text then text.drop 2 else text) =
        numeral 16 width w.toNat ++ fullWords ws) :
    ReadBack mem dst s (tasksetSscanf mem junk dst text) := by
  have hpos := numeral_length_pos 16 width w.toNat
  have hle := word_length_le hwidth w
  have hchars : (numeral 16 width w.toNat ++ fullWords ws).length =
      (numeral 16 width w.toNat).length + 16 * ws.length := by
    rw [List.length_append, length_fullWords]
  have hne : numeral 16 width w.toNat ++ fullWords ws ≠ [] :=
    List.append_ne_nil_of_left_ne_nil numeral_ne_nil _
  have hcount : ((numeral 16 width w.toNat ++ fullWords ws).length * 4 + 63) / 64 =
      ws.length + 1 := by
    rw [hchars]
    omega
  unfold Fits at hs
  simp only [tasksetSscanf, hinf, hcurrent]
  rw [dif_neg hne, dif_pos (by rw [hchars]; omega)]
  generalize hreset : dst.resetByUlongs mem junk
    (((numeral 16 width w.toNat ++ fullWords ws).length * 4 + 63) / 64) _ _ = r
  cases r with
  | none => exact ⟨false, dst, rfl, resetByUlongs_none hreset, rfl⟩
  | some set =>
    obtain ⟨hulongs, -⟩ := reset_eq_some hreset
    have hlen : ws.length + 1 = set.ulongs.length := by
      rw [hulongs, List.length_map, List.length_range, hcount]
    obtain ⟨set', hscan, hulongs'⟩ := scanWords_words hwidth set w ws hlen
    rw [Option.elim_some, hcount, hscan]
    exact ⟨true, { set' with infinite := s.infinite }, rfl,
      cpus_of_tasksetWords rfl (.inl (hulongs'.trans hwords))⟩

/-- With nothing set behind the words, the first word that is printed is not empty, or the
only one. -/
theorem exists_tasksetWords (hinf : s.infinite = false) : ∃ w ws,
    s.tasksetWords.reverse = w :: ws ∧ (w ≠ 0#64 ∨ ws = []) ∧ ws.length + 1 ≤ s.ulongs.length := by
  have hcount := s.count_pos
  cases hulongs : s.ulongs with
  | nil =>
    rw [hulongs] at hcount
    exact absurd hcount (Nat.lt_irrefl 0)
  | cons v vs =>
    have hwords : s.tasksetWords = v :: vs.rdropWhile fun v => v = 0#64 := by
      rw [tasksetWords, hinf, hulongs]
      rfl
    have hlast := List.rdropWhile_last_not (fun v : Ulong => decide (v = 0#64)) vs
    have hlen := (List.rdropWhile_prefix (fun v : Ulong => decide (v = 0#64)) vs).length_le
    rw [hwords, List.reverse_cons]
    generalize vs.rdropWhile (fun v => decide (v = 0#64)) = us at hlast hlen
    induction us using List.reverseRecOn with
    | nil => exact ⟨v, [], rfl, .inr rfl, by simp⟩
    | append_singleton us u _ =>
      refine ⟨u, us.reverse ++ [v], by rw [List.reverse_concat, List.cons_append], .inl ?_, ?_⟩
      · have hne := hlast (List.append_ne_nil_of_right_ne_nil us (List.cons_ne_nil u []))
        rw [List.getLast_append_singleton] at hne
        simpa using hne
      · rw [List.length_append, List.length_singleton] at hlen
        rw [List.length_append, List.length_reverse, List.length_singleton, List.length_cons]
        omega

theorem fullWords_not_nul (ws : List Ulong) : ∀ c ∈ fullWords ws, c ≠ '\x00' := by
  rintro c hc rfl
  exact absurd (fullWords_digits hc) (by decide)

/-- With nothing set behind its words, a bitmap has a text without the prefix. -/
theorem tasksetText_finite (hs : s.Fits) (hinf : s.infinite = false) (junk : Nat → Ulong) :
    ∃ text, Text s s.tasksetSnprintf text fun mem dst => tasksetSscanf mem junk dst := by
  obtain ⟨w, ws, hwords, hw, hlen⟩ := exists_tasksetWords hinf
  have hfits : s.ulongs.length < 2 ^ 25 := hs
  have hdigits := word_length_le (show 1 ≤ 16 by decide) w
  have hchars : ∀ c ∈ numeral 16 1 w.toNat ++ fullWords ws, isDigit 16 c = true := by
    intro c hc
    rcases List.mem_append.mp hc with hc | hc
    · exact isDigit_of_mem_numeral (by decide) (by decide) hc
    · exact fullWords_digits hc
  refine ⟨'0' :: 'x' :: (numeral 16 1 w.toNat ++ fullWords ws), ?_, ?_, ?_, fun mem dst => ?_⟩
  · have hsnprintf : s.tasksetSnprintf = fun o => printWords false (w :: ws) o >>= fun o =>
        if o.ret = 0 then emit ['0', 'x', '0'] o else pure o := by
      funext o
      rw [tasksetSnprintf, hinf, hwords]
      rfl
    have horElse := Prints.orElse ('0' :: 'x' :: (numeral 16 1 w.toNat ++ fullWords ws))
      ['0', 'x', '0']
    rw [if_neg (List.cons_ne_nil _ _)] at horElse
    have hall := (printWords_first [] hw).seq horElse
    rw [List.append_nil] at hall
    rw [hsnprintf]
    exact hall
  · simp only [List.length_cons, List.length_append, length_fullWords]
    omega
  · rintro c hc rfl
    rcases List.mem_cons.mp hc with hc | hc
    · exact absurd hc (by decide)
    · rcases List.mem_cons.mp hc with hc | hc
      · exact absurd hc (by decide)
      · exact absurd (hchars _ hc) (by decide)
  · have hprefix : infinitePrefix.isPrefixOf
        ('0' :: 'x' :: (numeral 16 1 w.toNat ++ fullWords ws)) = s.infinite := by
      rw [hinf, Bool.eq_false_iff]
      intro h
      have hdot : '.' ∈ '0' :: 'x' :: (numeral 16 1 w.toNat ++ fullWords ws) :=
        (List.isPrefixOf_iff_prefix.mp h).subset (by decide)
      have hdot' : '.' ∈ numeral 16 1 w.toNat ++ fullWords ws := by
        simpa using hdot
      exact absurd (hchars _ hdot') (by decide)
    refine tasksetSscanf_words w ws (show 1 ≤ 16 by decide) hlen hs ?_ hprefix ?_
    · rw [← hwords, List.reverse_reverse]
    · rw [hinf]
      rfl

/-- With everything behind its words set, a bitmap has a text with the prefix. -/
theorem tasksetText_infinite (hs : s.Fits) (hinf : s.infinite = true) (junk : Nat → Ulong) :
    ∃ text, Text s s.tasksetSnprintf text fun mem dst => tasksetSscanf mem junk dst := by
  have hfits : s.ulongs.length < 2 ^ 25 := hs
  have hwords : s.tasksetWords = s.shown := by rw [tasksetWords, if_pos hinf]
  have hle := s.shown_length
  refine ⟨infinitePrefix ++ fullWords s.shown.reverse, ?_, ?_, ?_, fun mem dst => ?_⟩
  · have hsnprintf : s.tasksetSnprintf = fun o => emit infinitePrefix o >>= fun o =>
        printWords true s.shown.reverse o >>= fun o =>
          if o.ret = 0 then emit ['0', 'x', '0'] o else pure o := by
      funext o
      rw [tasksetSnprintf, hwords, hinf]
      rfl
    have horElse := Prints.orElse (infinitePrefix ++ fullWords s.shown.reverse) ['0', 'x', '0']
    rw [if_neg (by exact List.cons_ne_nil _ _)] at horElse
    have hall := (Prints.emit [] infinitePrefix).seq
      ((printWords_prints infinitePrefix s.shown.reverse).seq horElse)
    rw [List.append_nil] at hall
    rw [hsnprintf]
    exact hall
  · rw [List.length_append, length_fullWords, List.length_reverse]
    change 7 + _ + 1 < _
    omega
  · intro c hc
    rcases List.mem_append.mp hc with hc | hc
    · exact infinitePrefix_not_nul c hc
    · exact fullWords_not_nul _ c hc
  · cases hshown : s.shown.reverse with
    | nil =>
      have hnone : s.shown = [] := List.reverse_eq_nil_iff.mp hshown
      refine ⟨true, dst.fill, rfl, cpus_of_shown hinf.symm (.inr ⟨hnone, ?_⟩)⟩
      rw [hinf]
      rfl
    | cons w ws =>
      have hlen := congrArg List.length hshown
      have hprefix : infinitePrefix.isPrefixOf (infinitePrefix ++ fullWords (w :: ws)) =
          s.infinite := by
        rw [hinf]
        exact List.isPrefixOf_iff_prefix.mpr (List.prefix_append _ _)
      rw [List.length_reverse, List.length_cons] at hlen
      refine tasksetSscanf_words w ws (Nat.le_refl 16) (by omega) hs ?_ hprefix ?_
      · rw [hwords, ← hshown, List.reverse_reverse]
      · rw [if_pos hinf]
        rfl

/-- What `hwloc_bitmap_taskset_asprintf` prints of a bitmap, `hwloc_bitmap_taskset_sscanf`
reads as the same set. -/
theorem taskset_roundTrip (hs : s.Fits) (junk : Nat → Char) (ulongs : Nat → Ulong) (mem : Bool)
    (dst : Bitmap) : ∃ len buf, asprintf true junk s.tasksetSnprintf = .ok (some (len, buf)) ∧
      ReadBack mem dst s (tasksetSscanf mem ulongs dst (cstr buf)) := by
  cases hinf : s.infinite with
  | false =>
    obtain ⟨text, htext⟩ := tasksetText_finite hs hinf ulongs
    exact htext.roundTrip junk mem dst
  | true =>
    obtain ⟨text, htext⟩ := tasksetText_infinite hs hinf ulongs
    exact htext.roundTrip junk mem dst

theorem taskset_roundTrip_sparse : ∃ len buf,
    asprintf true (fun _ => 'a') sparse.tasksetSnprintf = .ok (some (len, buf)) ∧
      ReadBack false alloc sparse (tasksetSscanf false (fun _ => 0x77#64) alloc (cstr buf)) :=
  taskset_roundTrip sparse_fits _ _ _ _

/-! ## The printers -/

/-- `hwloc_bitmap_snprintf`, `hwloc_bitmap_list_snprintf` and
`hwloc_bitmap_taskset_snprintf`. -/
def printers (s : Bitmap) : List (Out → Result Out) :=
  [s.snprintf, s.listSnprintf, s.tasksetSnprintf]

/-- A printer has one text. Whatever buffer it is given, it writes as much of that text as
there is room for, ends it there, leaves what is behind, and returns the whole length. -/
theorem printers_keepBuffer (hs : s.ulongs.length ≤ 2 ^ 20) : ∀ p ∈ s.printers, ∃ text,
    ∀ buf buflen, buflen ≤ buf.length →
      print p buf buflen = .ok (text.length, filled buf buflen text) := by
  have hfits : s.Fits := Nat.lt_of_le_of_lt hs (by decide)
  intro p hp
  have htext : ∃ text scan, Text s p text scan := by
    rcases List.mem_cons.mp hp with rfl | hp
    · obtain ⟨text, htext⟩ := exists_hexText hfits fun _ => 0#64
      exact ⟨text, _, htext⟩
    · rcases List.mem_cons.mp hp with rfl | hp
      · obtain ⟨rs, -, htext⟩ := exists_listText hs (fun _ => true) fun _ => rfl
        exact ⟨_, _, htext⟩
      · rw [List.mem_singleton.mp hp]
        cases hinf : s.infinite with
        | false =>
          obtain ⟨text, htext⟩ := tasksetText_finite hfits hinf fun _ => 0#64
          exact ⟨text, _, htext⟩
        | true =>
          obtain ⟨text, htext⟩ := tasksetText_infinite hfits hinf fun _ => 0#64
          exact ⟨text, _, htext⟩
  obtain ⟨text, scan, htext⟩ := htext
  have hshort := htext.short
  exact ⟨text, fun buf buflen hroom => htext.prints.print (by omega) hroom⟩

theorem printers_keepBuffer_sparse : ∃ text, ∀ buf buflen, buflen ≤ buf.length →
    print sparse.listSnprintf buf buflen = .ok (text.length, filled buf buflen text) :=
  printers_keepBuffer sparse_short _ (List.mem_cons_of_mem _ List.mem_cons_self)

/-! ## The binding as a string -/

/-- `quo_hwloc_stringify_cbind`, with the bitmap that a binding is in: what it leaves in
`out_str`. That nothing is left there for lack of memory is not noticed. -/
def hwlocStringifyCbind (hooks : Bind.Hooks) (f : Bind.Faults) (bitmap : Bind.Cpuset → Bitmap)
    (mem : Bool) (junk : Nat → Char) (h : Bind.QuoHwloc) (live : Bind.Cpuset) :
    Result (Except (CMem.Halt Rc) (Option (List Char))) :=
  match Bind.getCurBind hooks f .saveAlloc .saveGet h live with
  | .error e => .ok (.error e)
  | .ok curBind => do
    let r ← asprintf mem junk (bitmap curBind).listSnprintf
    return .ok (r.map Prod.snd)

/-- The string has the maximal runs of the current binding, and is read back as that binding. -/
theorem hwlocStringifyCbind_reads {hooks : Bind.Hooks} {f : Bind.Faults}
    {bitmap : Bind.Cpuset → Bitmap} {h : Bind.QuoHwloc} {live : Bind.Cpuset}
    (halloc : f .saveAlloc = false) (hget : f .saveGet = false)
    (hbitmap : (bitmap (hooks.procCpubind h.topo live)).Denotes (hooks.procCpubind h.topo live))
    (hlen : (bitmap (hooks.procCpubind h.topo live)).ulongs.length ≤ 2 ^ 20) (junk : Nat → Char)
    (dst : Bitmap) : ∃ buf rs top t,
      hwlocStringifyCbind hooks f bitmap true junk h live = .ok (.ok (some buf)) ∧
        cstr buf = rangesText false rs ∧
        MaximalRuns ↑(hooks.procCpubind h.topo live) top (-1) rs ∧
        listSscanf (fun _ => true) dst (cstr buf) = .ok (true, t) ∧
        t.cpus = ↑(hooks.procCpubind h.topo live) := by
  obtain ⟨rs, hruns, htext⟩ := exists_listText hlen (fun _ => true) fun _ => rfl
  obtain ⟨success, t, hscan, hcpus⟩ := htext.read true dst
  have hcstr : cstr (rangesText false rs ++ ['\x00']) = rangesText false rs :=
    cstr_append htext.chars []
  rw [hbitmap.cpus] at hruns
  have hsuccess : success = true := by
    cases success with
    | true => rfl
    | false => exact absurd hcpus.1 (by decide)
  subst hsuccess
  refine ⟨_, rs, _, t, ?_, hcstr, hruns, by rw [hcstr]; exact hscan, hcpus.trans hbitmap.cpus⟩
  rw [hwlocStringifyCbind, Bind.getCurBind, halloc, hget, if_neg Bool.false_ne_true,
    if_neg Bool.false_ne_true]
  simp only [htext.prints.asprintf htext.short]
  rfl

end LibQuo.Bitmap
