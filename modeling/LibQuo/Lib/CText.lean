import Mathlib.Algebra.Ring.Nat
import Mathlib.Data.List.Basic
import Mathlib.Data.Nat.Basic

/-!
Texts in C: printers that write piece by piece into a buffer with `snprintf`, cut off what
there is no room for and count what they would have written; and `strtoul`, with the number
that it reads and the text that it leaves.
-/

namespace CText

/-- Why a function does not return. -/
inductive Fault
  | outOfBounds
  | overflow
  | assertFailed
  | noFuel
  deriving DecidableEq, Repr

abbrev Result := Except Fault

section Printers

/-- `snprintf(buf + tmp, size, ...)` with the text that it is to write. -/
def snprintf (buf : List Char) (tmp size : Nat) (text : List Char) : Result (List Char) :=
  let out := text.take (size - 1) ++ ['\x00']
  if size = 0 then .ok buf
  else if tmp + out.length ≤ buf.length then
    .ok (buf.take tmp ++ out ++ buf.drop (tmp + out.length))
  else .error .outOfBounds

/-- Where a printer is: the place in the buffer, the room there, and what it will return. -/
structure Out where
  buf : List Char
  tmp : Nat
  size : Nat
  ret : Nat
  deriving DecidableEq

/-- The buffer is marked as empty. -/
def start (buf : List Char) (buflen : Nat) : Result Out :=
  if buflen = 0 then .ok ⟨buf, 0, 0, 0⟩
  else if 0 < buf.length then .ok ⟨buf.set 0 '\x00', 0, buflen, 0⟩
  else .error .outOfBounds

/-- One piece is written, and the place moves on as far as it has been. -/
def emit (piece : List Char) (o : Out) : Result Out := do
  let buf ← snprintf o.buf o.tmp o.size piece
  if o.ret + piece.length < 2 ^ 31 then
    let res := if o.size ≤ piece.length then o.size - 1 else piece.length
    return ⟨buf, o.tmp + res, o.size - res, o.ret + piece.length⟩
  else throw .overflow

/-- A call with a buffer: what it returns, and the buffer. -/
def print (p : Out → Result Out) (buf : List Char) (buflen : Nat) : Result (Nat × List Char) := do
  let o ← start buf buflen
  let o ← p o
  return (o.ret, o.buf)

/-- A call without a buffer, and one with a buffer of that length if there is memory for it;
`junk` is what the memory holds. -/
def asprintf (mem : Bool) (junk : Nat → Char) (p : Out → Result Out) :
    Result (Option (Nat × List Char)) := do
  let (len, _) ← print p [] 0
  if len + 1 < 2 ^ 31 then
    if mem then
      let r ← print p ((List.range (len + 1)).map junk) (len + 1)
      return some r
    else return none
  else throw .overflow

/-- The string at the beginning of a buffer. -/
def cstr (buf : List Char) : List Char := buf.takeWhile fun c => c ≠ '\x00'

/-- A buffer with as much of a text as there is room for, its terminator, and behind it
what was there before. -/
def filled (buf : List Char) (buflen : Nat) (text : List Char) : List Char :=
  if buflen = 0 then buf
  else text.take (buflen - 1) ++ '\x00' :: buf.drop (min text.length (buflen - 1) + 1)

structure Printed (buf : List Char) (buflen : Nat) (text : List Char) (o : Out) : Prop where
  buf_eq : o.buf = filled buf buflen text
  tmp_eq : o.tmp = min text.length (buflen - 1)
  size_eq : o.size = buflen - o.tmp
  ret_eq : o.ret = text.length

/-- After `done`, a part of a printer adds `text`, whatever room there is. -/
def Prints (p : Out → Result Out) (done text : List Char) : Prop :=
  ∀ buf buflen o, buflen ≤ buf.length → (done ++ text).length < 2 ^ 31 →
    Printed buf buflen done o → ∃ o', p o = .ok o' ∧ Printed buf buflen (done ++ text) o'

variable {p q : Out → Result Out} {done text text' piece buf : List Char} {buflen : Nat}
  {o : Out}

theorem length_filled (h : buflen ≤ buf.length) : (filled buf buflen text).length = buf.length := by
  unfold filled
  split
  · rfl
  · simp only [List.length_append, List.length_take, List.length_cons, List.length_drop]
    omega

/-- A piece that is written where the text ends. -/
theorem snprintf_filled (h : buflen ≤ buf.length) (hlen : buflen ≠ 0) :
    snprintf (filled buf buflen text) (min text.length (buflen - 1))
        (buflen - min text.length (buflen - 1)) piece =
      .ok (filled buf buflen (text ++ piece)) := by
  have hroom : buflen - min text.length (buflen - 1) - 1 = buflen - 1 - text.length := by omega
  have hsize : buflen - min text.length (buflen - 1) ≠ 0 := by omega
  have htake : (text.take (buflen - 1)).length = min text.length (buflen - 1) := by
    rw [List.length_take, Nat.min_comm]
  have hout : (piece.take (buflen - 1 - text.length) ++ ['\x00']).length =
      min piece.length (buflen - 1 - text.length) + 1 := by
    rw [List.length_append, List.length_take, Nat.min_comm, List.length_singleton]
  have hfits : min text.length (buflen - 1) +
      (min piece.length (buflen - 1 - text.length) + 1) ≤ (filled buf buflen text).length := by
    rw [length_filled h]
    omega
  rw [snprintf, hroom, if_neg hsize, hout, if_pos hfits]
  have hbefore : (filled buf buflen text).take (min text.length (buflen - 1)) =
      text.take (buflen - 1) := by
    rw [filled, if_neg hlen, ← htake, List.take_left]
  have hbehind : (filled buf buflen text).drop (min text.length (buflen - 1) +
        (min piece.length (buflen - 1 - text.length) + 1)) =
      buf.drop (min (text ++ piece).length (buflen - 1) + 1) := by
    have hplace : min text.length (buflen - 1) + 1 +
        min piece.length (buflen - 1 - text.length) =
        min (text ++ piece).length (buflen - 1) + 1 := by
      rw [List.length_append]
      omega
    rw [filled, if_neg hlen, ← htake, List.drop_append, List.drop_of_length_le (by omega),
      List.nil_append, Nat.add_sub_cancel_left, List.drop_succ_cons, List.drop_drop, htake, hplace]
  rw [hbefore, hbehind, filled, if_neg hlen, List.take_append]
  simp only [List.append_assoc, List.singleton_append]

/-- A piece is written as far as there is room. -/
theorem Prints.emit (done piece : List Char) : Prints (emit piece) done piece := by
  intro buf buflen o hroom hlen ho
  obtain ⟨hbuf, htmp, hsize, hret⟩ := ho
  rw [List.length_append] at hlen
  have hsnprintf : snprintf o.buf o.tmp o.size piece = .ok (filled buf buflen (done ++ piece)) := by
    by_cases hzero : buflen = 0
    · rw [snprintf, if_pos (by omega), hbuf, filled, if_pos hzero, filled, if_pos hzero]
    · rw [hbuf, hsize, htmp]
      exact snprintf_filled hroom hzero
  refine ⟨_, by rw [CText.emit, hsnprintf, hret]; exact if_pos hlen, rfl, ?_, ?_, ?_⟩
  · simp only [List.length_append]
    split
    · omega
    · omega
  · simp only
    omega
  · rw [List.length_append]

/-- What prints nothing. -/
theorem Prints.skip (done : List Char) : Prints pure done [] := by
  intro buf buflen o _ _ ho
  rw [List.append_nil]
  exact ⟨o, rfl, ho⟩

theorem Prints.seq (hp : Prints p done text) (hq : Prints q (done ++ text) text') :
    Prints (fun o => p o >>= q) done (text ++ text') := by
  intro buf buflen o hroom hlen ho
  rw [← List.append_assoc] at hlen ⊢
  have hlen' : (done ++ text).length < 2 ^ 31 := by
    rw [List.length_append] at hlen
    exact Nat.lt_of_le_of_lt (Nat.le_add_right _ _) hlen
  obtain ⟨o', hp', ho'⟩ := hp buf buflen o hroom hlen' ho
  obtain ⟨o'', hq', ho''⟩ := hq buf buflen o' hroom hlen ho'
  refine ⟨o'', ?_, ho''⟩
  change p o >>= q = _
  rw [hp']
  exact hq'

/-- What is printed only if nothing has been so far. -/
theorem Prints.orElse (text other : List Char) :
    Prints (fun o => if o.ret = 0 then CText.emit other o else pure o) text
      (if text = [] then other else []) := by
  intro buf buflen o hroom hlen ho
  have hret := ho.ret_eq
  cases text with
  | nil =>
    obtain ⟨o', hemit, ho'⟩ := Prints.emit [] other buf buflen o hroom hlen ho
    exact ⟨o', (if_pos hret).trans hemit, ho'⟩
  | cons c text =>
    rw [if_neg (List.cons_ne_nil c text), List.append_nil]
    exact ⟨o, if_neg (by rw [hret]; exact Nat.succ_ne_zero _), ho⟩

/-- At the beginning nothing is printed. -/
theorem start_printed (hroom : buflen ≤ buf.length) :
    ∃ o, start buf buflen = .ok o ∧ Printed buf buflen [] o := by
  unfold start
  split
  case isTrue hzero =>
    refine ⟨_, rfl, ?_, ?_, ?_, rfl⟩
    · rw [filled, if_pos hzero]
    · exact (Nat.zero_min _).symm
    · exact hzero.symm
  case isFalse hpos =>
    rw [if_pos (by omega)]
    refine ⟨_, rfl, ?_, (Nat.zero_min _).symm, rfl, rfl⟩
    cases buf with
    | nil => exact absurd (Nat.le_zero.mp hroom) hpos
    | cons c buf => rw [filled, if_neg hpos]; simp

/-- A whole printer never leaves its buffer, and returns the length of its text. -/
theorem Prints.print (h : Prints p [] text) (hlen : text.length < 2 ^ 31)
    (hroom : buflen ≤ buf.length) :
    CText.print p buf buflen = .ok (text.length, filled buf buflen text) := by
  obtain ⟨o, hstart, ho⟩ := start_printed hroom
  obtain ⟨o', hp, ho'⟩ := h buf buflen o hroom hlen ho
  rw [CText.print, hstart]
  change (p o >>= fun o => pure (o.ret, o.buf)) = _
  rw [hp]
  change Except.ok (o'.ret, o'.buf) = _
  rw [ho'.ret_eq, ho'.buf_eq, List.nil_append]

/-- A printer with a buffer of its own prints the whole text. -/
theorem Prints.asprintf {junk : Nat → Char} (h : Prints p [] text)
    (hlen : text.length + 1 < 2 ^ 31) :
    CText.asprintf true junk p = .ok (some (text.length, text ++ ['\x00'])) := by
  have hcount := h.print (by omega) (Nat.le_refl ([] : List Char).length)
  have hroom : text.length + 1 ≤ ((List.range (text.length + 1)).map junk).length := by
    rw [List.length_map, List.length_range]
  have hwhole := h.print (by omega) hroom
  have hfilled : filled ((List.range (text.length + 1)).map junk) (text.length + 1) text =
      text ++ ['\x00'] := by
    rw [filled, if_neg (Nat.succ_ne_zero _), Nat.add_sub_cancel, List.take_length, Nat.min_self,
      List.drop_of_length_le (by rw [List.length_map, List.length_range])]
  rw [hfilled] at hwhole
  rw [CText.asprintf, show CText.print p [] 0 = _ from hcount]
  change (if text.length + 1 < 2 ^ 31 then _ else _) = _
  rw [if_pos hlen, if_pos rfl, hwhole]
  rfl

/-- A text goes on up to the first character that is of another kind. -/
theorem span_append {p : Char → Bool} (htext : ∀ c ∈ text, p c = true)
    (hbuf : ∀ c ∈ buf.head?, p c = false) :
    (text ++ buf).takeWhile p = text ∧ (text ++ buf).dropWhile p = buf := by
  rw [List.takeWhile_append_of_pos htext, List.dropWhile_append_of_pos htext]
  cases buf with
  | nil => exact ⟨List.append_nil text, rfl⟩
  | cons c buf =>
    have hc : ¬p c = true := by
      rw [hbuf c rfl]
      exact Bool.false_ne_true
    rw [List.takeWhile_cons_of_neg hc, List.dropWhile_cons_of_neg hc, List.append_nil]
    exact ⟨rfl, rfl⟩

/-- A text is read back from its buffer. -/
theorem cstr_append (h : ∀ c ∈ text, c ≠ '\x00') (buf : List Char) :
    cstr (text ++ '\x00' :: buf) = text := by
  rw [cstr, List.takeWhile_append_of_pos (by simpa using h), List.takeWhile_cons_of_neg (by simp),
    List.append_nil]

end Printers

section Numerals

/-- `isspace` in the `C` locale. -/
def isSpace (c : Char) : Bool := c.toNat = 32 ∨ 9 ≤ c.toNat ∧ c.toNat ≤ 13

/-- What a digit stands for; `36` for what is no digit in any base. -/
def digitVal (c : Char) : Nat :=
  if 48 ≤ c.toNat ∧ c.toNat ≤ 57 then c.toNat - 48
  else if 97 ≤ c.toNat ∧ c.toNat ≤ 122 then c.toNat - 87
  else if 65 ≤ c.toNat ∧ c.toNat ≤ 90 then c.toNat - 55
  else 36

def isDigit (base : Nat) (c : Char) : Bool := digitVal c < base

def ofDigits (base : Nat) (cs : List Char) : Nat := cs.foldl (fun n c => n * base + digitVal c) 0

/-- `%0*lx` and `%0*d`: at least `width` digits. -/
def numeral (base width n : Nat) : List Char := List.leftpad width '0' (Nat.toDigits base n)

/-- The sign of a number, and what follows it. -/
def sign : List Char → Bool × List Char
  | '-' :: s => (true, s)
  | '+' :: s => (false, s)
  | s => (false, s)

/-- The base of a number, and where its digits begin. -/
def radix (base : Nat) : List Char → Nat × List Char
  | '0' :: x :: d :: s =>
    if (base = 0 ∨ base = 16) ∧ (x = 'x' ∨ x = 'X') ∧ isDigit 16 d then (16, d :: s)
    else (if base = 0 then 8 else base, '0' :: x :: d :: s)
  | '0' :: s => (if base = 0 then 8 else base, '0' :: s)
  | s => (if base = 0 then 10 else base, s)

/-- `strtoul` for `unsigned long` of `w` bits. -/
def strtoul (w base : Nat) (s : List Char) : BitVec w × List Char :=
  let (neg, s₁) := sign (s.dropWhile isSpace)
  let (base, s₂) := radix base s₁
  let ds := s₂.takeWhile (isDigit base)
  if ds = [] then (0#w, s)
  else
    let n := ofDigits base ds
    let v := if 2 ^ w ≤ n then BitVec.allOnes w
      else if neg then -BitVec.ofNat w n else BitVec.ofNat w n
    (v, s₂.dropWhile (isDigit base))

variable {w base width n : Nat} {s ds rest : List Char} {c : Char}

theorem digitVal_digitChar : ∀ d < 16, digitVal (Nat.digitChar d) = d := by decide

theorem ofDigits_snoc (ds : List Char) (c : Char) :
    ofDigits base (ds ++ [c]) = ofDigits base ds * base + digitVal c := by
  rw [ofDigits, List.foldl_append, List.foldl_cons, List.foldl_nil, ofDigits]

/-- A number is what its digits say. -/
theorem ofDigits_toDigits (hbase : 1 < base) (hle : base ≤ 16) (n : Nat) :
    ofDigits base (Nat.toDigits base n) = n ∧ ∀ c ∈ Nat.toDigits base n, isDigit base c := by
  induction n using Nat.strongRecOn with
  | ind n ih =>
    by_cases hn : n < base
    · rw [Nat.toDigits_of_lt_base hn]
      have hval := digitVal_digitChar n (by omega)
      refine ⟨by rw [ofDigits, List.foldl_cons, List.foldl_nil, hval, Nat.zero_mul, Nat.zero_add],
        fun c hc => ?_⟩
      rw [List.mem_singleton.mp hc, isDigit, hval]
      exact decide_eq_true hn
    · have hn := Nat.not_lt.mp hn
      have hmod : n % base < base := Nat.mod_lt n (by omega)
      have hval := digitVal_digitChar (n % base) (by omega)
      obtain ⟨hdigits, hall⟩ := ih (n / base) (Nat.div_lt_self (by omega) hbase)
      rw [Nat.toDigits_of_base_le hbase hn]
      refine ⟨by rw [ofDigits_snoc, hdigits, hval, Nat.div_add_mod'], fun c hc => ?_⟩
      rcases List.mem_append.mp hc with hc | hc
      · exact hall c hc
      · rw [List.mem_singleton.mp hc, isDigit, hval]
        exact decide_eq_true hmod

/-- Zeros in front do not count. -/
theorem ofDigits_zeros (k : Nat) (ds : List Char) :
    ofDigits base (List.replicate k '0' ++ ds) = ofDigits base ds := by
  have hzeros : (List.replicate k '0').foldl (fun n c => n * base + digitVal c) 0 = 0 := by
    induction k with
    | zero => rfl
    | succ k ih =>
      have hzero : digitVal '0' = 0 := by decide
      rw [List.replicate_succ, List.foldl_cons, Nat.zero_mul, hzero, ih]
  rw [ofDigits, List.foldl_append, hzeros, ofDigits]

theorem ofDigits_numeral (hbase : 1 < base) (hle : base ≤ 16) :
    ofDigits base (numeral base width n) = n := by
  rw [numeral, List.leftpad, ofDigits_zeros]
  exact (ofDigits_toDigits hbase hle n).1

theorem isDigit_of_mem_numeral (hbase : 1 < base) (hle : base ≤ 16)
    (hc : c ∈ numeral base width n) : isDigit base c = true := by
  rw [numeral, List.leftpad] at hc
  rcases List.mem_append.mp hc with hc | hc
  · have hzero : digitVal '0' = 0 := by decide
    rw [List.eq_of_mem_replicate hc, isDigit, hzero]
    exact decide_eq_true (by omega)
  · exact (ofDigits_toDigits hbase hle n).2 c hc

theorem numeral_ne_nil : numeral base width n ≠ [] := by
  rw [numeral, List.leftpad]
  exact List.append_ne_nil_of_right_ne_nil _ Nat.toDigits_ne_nil

theorem length_numeral (hbase : 1 < base) (hwidth : 0 < width) (hn : n < base ^ width) :
    (numeral base width n).length = width := by
  have hlen := (Nat.length_toDigits_le_iff hbase hwidth).mpr hn
  rw [numeral, List.leftpad, List.length_append, List.length_replicate]
  omega

/-- A text that cannot go on a number: it is empty, or begins with what is no digit. -/
def Ends (rest : List Char) : Prop := ∀ c ∈ rest.head?, digitVal c = 36

theorem Ends.nil : Ends [] := fun _ hc => absurd hc (by simp)

theorem Ends.cons (hc : digitVal c = 36) (s : List Char) : Ends (c :: s) := by
  intro d hd
  rw [← Option.some.inj hd, hc]

theorem Ends.not_digit (h : Ends rest) (hle : base ≤ 36) :
    ∀ c ∈ rest.head?, isDigit base c = false := by
  intro c hc
  rw [isDigit, h c hc]
  exact decide_eq_false (Nat.not_lt.mpr hle)

/-- A number that begins with a digit has no sign. -/
theorem sign_digit (hc : digitVal c < 36) (s : List Char) :
    sign ((c :: s).dropWhile isSpace) = (false, c :: s) := by
  have hspace : ¬isSpace c = true := by
    intro hspace
    simp only [isSpace, decide_eq_true_eq] at hspace
    simp only [digitVal] at hc
    split at hc
    · omega
    · split at hc
      · omega
      · split at hc
        · omega
        · omega
  rw [List.dropWhile_cons_of_neg hspace]
  unfold sign
  split
  case h_1 heq =>
    rw [(List.cons.inj heq).1] at hc
    exact absurd hc (by decide)
  case h_2 heq =>
    rw [(List.cons.inj heq).1] at hc
    exact absurd hc (by decide)
  case h_3 => rfl

/-- The digits are read, up to what cannot go on the number. -/
theorem strtoul_of_radix {s' : List Char} {base' : Nat}
    (hsign : sign (s.dropWhile isSpace) = (false, s'))
    (hradix : radix base s' = (base', ds ++ rest)) (hne : ds ≠ [])
    (hds : ∀ c ∈ ds, isDigit base' c = true) (hbase : base' ≤ 36) (hends : Ends rest)
    (hlt : ofDigits base' ds < 2 ^ w) :
    strtoul w base s = (BitVec.ofNat w (ofDigits base' ds), rest) := by
  obtain ⟨htake, hdrop⟩ := span_append hds (hends.not_digit hbase)
  simp only [strtoul, hsign, hradix, htake, hdrop]
  rw [if_neg hne, if_neg (Nat.not_le.mpr hlt), if_neg Bool.false_ne_true]

/-- No digit stands for an `x`. -/
theorem digitVal_x {x : Char} (hx : x = 'x' ∨ x = 'X') : digitVal x = 33 := by
  rcases hx with rfl | rfl
  · decide
  · decide

/-- Digits without a prefix are in the given base. -/
theorem radix_digits (hbase : 0 < base) (hle : base ≤ 16) (hne : ds ≠ [])
    (hds : ∀ c ∈ ds, isDigit base c = true) (hends : Ends rest) :
    radix base (ds ++ rest) = (base, ds ++ rest) := by
  have hzero : base ≠ 0 := Nat.pos_iff_ne_zero.mp hbase
  unfold radix
  split
  case h_1 x d s' heq =>
    have hx : ¬(x = 'x' ∨ x = 'X') := by
      intro hx
      have hval := digitVal_x hx
      cases ds with
      | nil => exact hne rfl
      | cons c ds =>
        have htail := (List.cons.inj heq).2
        cases ds with
        | nil =>
          have hend := hends x (by
            change rest = _ at htail
            rw [htail]
            rfl)
          omega
        | cons c' ds =>
          have hdigit := hds c' (List.mem_cons_of_mem _ List.mem_cons_self)
          rw [(List.cons.inj htail).1, isDigit, hval, decide_eq_true_eq] at hdigit
          omega
    rw [if_neg fun h => hx h.2.1, if_neg hzero, heq]
  case h_2 heq => rw [if_neg hzero, heq]
  case h_3 => rw [if_neg hzero]

theorem digit_lt (hle : base ≤ 36) (hc : isDigit base c = true) : digitVal c < 36 :=
  Nat.lt_of_lt_of_le (of_decide_eq_true hc) hle

/-- A numeral in its own base. -/
theorem strtoul_numeral (hbase : 1 < base) (hle : base ≤ 16) (hn : n < 2 ^ w) (hends : Ends rest) :
    strtoul w base (numeral base width n ++ rest) = (BitVec.ofNat w n, rest) := by
  have hdigits : ∀ c ∈ numeral base width n, isDigit base c = true :=
    fun c hc => isDigit_of_mem_numeral hbase hle hc
  have hne : numeral base width n ≠ [] := numeral_ne_nil
  have hval : ofDigits base (numeral base width n) = n := ofDigits_numeral hbase hle
  have hradix := radix_digits (by omega) hle hne hdigits hends
  generalize numeral base width n = ds at *
  cases ds with
  | nil => exact absurd rfl hne
  | cons c ds =>
    have hsign := sign_digit (digit_lt (by omega) (hdigits c List.mem_cons_self)) (ds ++ rest)
    rw [← List.cons_append] at hsign
    rw [strtoul_of_radix hsign hradix hne hdigits (by omega) hends (by rwa [hval]), hval]

/-- A hexadecimal numeral with its prefix, for a `strtoul` in base 16 or in any base. -/
theorem strtoul_hex (hbase : base = 0 ∨ base = 16) (hn : n < 2 ^ w) (hends : Ends rest) :
    strtoul w base ('0' :: 'x' :: (numeral 16 width n ++ rest)) = (BitVec.ofNat w n, rest) := by
  have hdigits : ∀ c ∈ numeral 16 width n, isDigit 16 c = true :=
    fun c hc => isDigit_of_mem_numeral (by decide) (by decide) hc
  have hne : numeral 16 width n ≠ [] := numeral_ne_nil
  have hval : ofDigits 16 (numeral 16 width n) = n := ofDigits_numeral (by decide) (by decide)
  have hsign := sign_digit (c := '0') (by decide) ('x' :: (numeral 16 width n ++ rest))
  have hradix : radix base ('0' :: 'x' :: (numeral 16 width n ++ rest)) =
      (16, numeral 16 width n ++ rest) := by
    generalize numeral 16 width n = ds at *
    cases ds with
    | nil => exact absurd rfl hne
    | cons c ds => exact if_pos ⟨hbase, .inl rfl, hdigits c List.mem_cons_self⟩
  rw [strtoul_of_radix hsign hradix hne hdigits (by decide) hends (by rwa [hval]), hval]

/-- A decimal numeral has no zero in front. -/
theorem head_decimal (hn : 0 < n) (s : List Char) :
    radix 0 (Nat.toDigits 10 n ++ s) = (10, Nat.toDigits 10 n ++ s) := by
  have hhead : ∀ n s, 0 < n → ∃ d t, d ≠ '0' ∧ Nat.toDigits 10 n ++ s = d :: t := by
    intro n
    induction n using Nat.strongRecOn with
    | ind n ih =>
      intro s hn
      by_cases hlt : n < 10
      · rw [Nat.toDigits_of_lt_base hlt]
        refine ⟨_, _, ?_, rfl⟩
        intro hzero
        have hval := digitVal_digitChar n (by omega)
        rw [hzero] at hval
        exact absurd hval (by have : digitVal '0' = 0 := by decide
                              omega)
      · rw [Nat.toDigits_of_base_le (by decide) (Nat.not_lt.mp hlt), List.append_assoc]
        exact ih (n / 10) (by omega) _ (by omega)
  obtain ⟨d, t, hd, heq⟩ := hhead n s hn
  rw [heq]
  unfold radix
  split
  case h_1 heq' => exact absurd (List.cons.inj heq').1 hd
  case h_2 heq' => exact absurd (List.cons.inj heq').1 hd
  case h_3 => rfl

/-- A decimal numeral, for a `strtoul` in any base. -/
theorem strtoul_decimal (hn : n < 2 ^ w) (hends : Ends rest) :
    strtoul w 0 (Nat.toDigits 10 n ++ rest) = (BitVec.ofNat w n, rest) := by
  obtain ⟨hval, hdigits⟩ := @ofDigits_toDigits 10 (by decide) (by decide) n
  have hne : Nat.toDigits 10 n ≠ [] := Nat.toDigits_ne_nil
  have hsign : sign ((Nat.toDigits 10 n ++ rest).dropWhile isSpace) =
      (false, Nat.toDigits 10 n ++ rest) := by
    generalize Nat.toDigits 10 n = ds at *
    cases ds with
    | nil => exact absurd rfl hne
    | cons c ds => exact sign_digit (digit_lt (by decide) (hdigits c List.mem_cons_self)) _
  by_cases hzero : n = 0
  · subst hzero
    have hradix : radix 0 (Nat.toDigits 10 0 ++ rest) = (8, ['0'] ++ rest) := by
      rw [Nat.toDigits_zero, List.singleton_append]
      unfold radix
      split
      case h_1 x d s' heq =>
        have hx : ¬(x = 'x' ∨ x = 'X') := by
          intro hx
          have hval := digitVal_x hx
          have hend := hends x (by rw [(List.cons.inj heq).2]; rfl)
          omega
        rw [if_neg fun h => hx h.2.1, if_pos rfl, ← (List.cons.inj heq).2]
      case h_2 heq => rw [if_pos rfl, ← (List.cons.inj heq).2]
      case h_3 _ hnone => exact absurd rfl (hnone rest)
    have hdigits₈ : ∀ c ∈ ['0'], isDigit 8 c = true := by
      intro c hc
      rw [List.mem_singleton.mp hc]
      decide
    rw [strtoul_of_radix hsign hradix (List.cons_ne_nil _ _) hdigits₈ (by decide) hends hn]
    rfl
  · have hradix := head_decimal (Nat.pos_iff_ne_zero.mpr hzero) rest
    rw [strtoul_of_radix hsign hradix hne hdigits (by decide) hends (by rwa [hval]), hval]

/-- Where no number is, nothing is read. -/
theorem strtoul_nothing (hspace : isSpace c = false) (hminus : c ≠ '-') (hplus : c ≠ '+')
    (hc : digitVal c = 36) (hle : base ≤ 36) (s : List Char) :
    strtoul w base (c :: s) = (0#w, c :: s) := by
  have hne (d : Char) (hd : digitVal d ≠ 36) : c ≠ d := by
    rintro rfl
    exact hd hc
  have hsign : sign ((c :: s).dropWhile isSpace) = (false, c :: s) := by
    rw [List.dropWhile_cons_of_neg (by rw [hspace]; exact Bool.false_ne_true)]
    unfold sign
    split
    case h_1 heq => exact absurd (List.cons.inj heq).1 hminus
    case h_2 heq => exact absurd (List.cons.inj heq).1 hplus
    case h_3 => rfl
  have hzero : c ≠ '0' := hne '0' (by decide)
  have hradix : radix base (c :: s) = (if base = 0 then 10 else base, c :: s) := by
    unfold radix
    split
    case h_1 heq => exact absurd (List.cons.inj heq).1 hzero
    case h_2 heq => exact absurd (List.cons.inj heq).1 hzero
    case h_3 => rfl
  have hdigit : ¬isDigit (if base = 0 then 10 else base) c = true := by
    rw [isDigit, hc, decide_eq_true_eq]
    split
    · decide
    · omega
  simp only [strtoul, hsign, hradix]
  rw [List.takeWhile_cons_of_neg hdigit, if_pos rfl]

end Numerals

end CText
