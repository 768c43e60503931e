import LibQuo.AutoDistrib.Run
import LibQuo.Lib.Bytes

/-!
The shared segment of `get_qids_in_target_type`, byte by byte: process 0 writes the counts
and then the lists one after the other, and the others rebuild both from the bytes.
-/

namespace LibQuo.AutoDistrib
open CMem Bytes

abbrev CInt := BitVec 32

abbrev SizeT := BitVec 64

def intToSize (x : CInt) : SizeT := x.signExtend 64

def sizeToInt (x : SizeT) : CInt := x.setWidth 32

/-- `sizeof(*nranks_in_res)`. -/
def sizeofInt : SizeT := 4

/-- The turns of `for (int i = 0; i < n_target; ++i)`. -/
def turns (nTarget : CInt) : Nat := nTarget.toInt.toNat

def headerLen (nTarget : CInt) : CInt := sizeToInt (intToSize nTarget * sizeofInt)

def numEntries (nTarget : CInt) (nranksInRes : List CInt) : Except (Halt Rc) CInt :=
  (List.range (turns nTarget)).foldlM (fun num i => do
    let nranks ← load nranksInRes i
    .ok (num + nranks)) 0

def smSegLen (nTarget : CInt) (nranksInRes : List CInt) : Except (Halt Rc) CInt := do
  let num ← numEntries nTarget nranksInRes
  .ok (sizeToInt (intToSize (0 + headerLen nTarget) + intToSize num * sizeofInt))

section Source

variable (lay : Layout CInt 4)

/-- The loop that writes the lists, with `k` turns left: `tabp` is an offset from the base. -/
def packRows (nranksInRes : List CInt) (rankIdsInRes : List (List CInt)) :
    Nat → Nat → Nat → List Byte → Except (Halt Rc) (List Byte)
  | 0, _, _, seg => .ok seg
  | k + 1, i, tabp, seg => do
      let nranks ← load nranksInRes i
      let nbytes := (intToSize nranks * sizeofInt).toNat
      let row ← load rankIdsInRes i
      let seg ← memmove seg tabp (lay.encAll row) 0 nbytes
      packRows nranksInRes rankIdsInRes k (i + 1) (tabp + nbytes) seg

/-- What process 0 makes of the segment. -/
def pack (nTarget : CInt) (nranksInRes : List CInt) (rankIdsInRes : List (List CInt))
    (seg : List Byte) : Except (Halt Rc) (List Byte) :=
  if nTarget.toInt ≤ 0 then .error (.code .errInvldArg)
  else do
    let len := (intToSize (headerLen nTarget)).toNat
    let seg ← memmove seg 0 (lay.encAll nranksInRes) 0 len
    packRows lay nranksInRes rankIdsInRes (turns nTarget) 0 len seg

/-- The arrays that a call of `get_qids_in_target_type` allocates. -/
inductive Calloc
  | nranksInRes
  | rankIdsInRes
  | row (i : Nat)
  deriving DecidableEq, Repr

variable (calloc : Calloc → Bool)

/-- The loop that reads the lists, with `k` turns left. -/
def unpackRows (seg : List Byte) (nranksInRes : List CInt) :
    Nat → Nat → Nat → List (List CInt) → Except (Halt Rc) (List (List CInt))
  | 0, _, _, rankIdsInRes => .ok rankIdsInRes
  | k + 1, i, tabp, rankIdsInRes => do
      let count ← load nranksInRes i
      let nranks := intToSize count
      let nbytes := (nranks * sizeofInt).toNat
      if calloc (.row i) = false then .error (.code .errOor)
      else do
        let row ← memmove (List.replicate (nranks.toNat * 4) 0) 0 seg tabp nbytes
        let rankIdsInRes ← store rankIdsInRes i (lay.decAll nranks.toNat row)
        unpackRows seg nranksInRes k (i + 1) (tabp + nbytes) rankIdsInRes

/-- What another process makes of the segment: the two arrays. -/
def unpack (nTarget : CInt) (seg : List Byte) :
    Except (Halt Rc) (List CInt × List (List CInt)) :=
  if nTarget.toInt ≤ 0 then .error (.code .errInvldArg)
  else if calloc .nranksInRes = false then .error (.code .errOor)
  else if calloc .rankIdsInRes = false then .error (.code .errOor)
  else do
    let n := (intToSize nTarget).toNat
    let len := (intToSize (headerLen nTarget)).toNat
    let header ← memmove (List.replicate (n * 4) 0) 0 seg 0 len
    let nranksInRes := lay.decAll n header
    let rankIdsInRes ←
      unpackRows lay calloc seg nranksInRes (turns nTarget) 0 len (List.replicate n [])
    .ok (nranksInRes, rankIdsInRes)

end Source

def nTargetOf (rows : List (List CInt)) : CInt := BitVec.ofNat 32 rows.length

def countsOf (rows : List (List CInt)) : List CInt := rows.map fun row => BitVec.ofNat 32 row.length

/-- The packed table: the counts, then the lists in order. -/
def image (lay : Layout CInt 4) (rows : List (List CInt)) : List Byte :=
  lay.encAll (countsOf rows ++ rows.flatten)

theorem toNat_ofNat {k : Nat} (h : k < 2 ^ 31) : (BitVec.ofNat 32 k).toNat = k := by
  rw [BitVec.toNat_ofNat]
  omega

theorem toInt_ofNat {k : Nat} (h : k < 2 ^ 31) : (BitVec.ofNat 32 k).toInt = k := by
  rw [BitVec.toInt_eq_toNat_cond, toNat_ofNat h]
  omega

theorem intToSize_ofNat {k : Nat} (h : k < 2 ^ 31) : (intToSize (BitVec.ofNat 32 k)).toNat = k := by
  have hmsb : (BitVec.ofNat 32 k).msb = false := by
    rw [BitVec.msb_eq_false_iff_two_mul_lt, toNat_ofNat h]
    omega
  rw [intToSize, BitVec.signExtend_eq_setWidth_of_msb_false hmsb, BitVec.toNat_setWidth,
    toNat_ofNat h]
  omega

theorem nbytes_ofNat {k : Nat} (h : k < 2 ^ 31) :
    (intToSize (BitVec.ofNat 32 k) * sizeofInt).toNat = 4 * k := by
  have hsize : sizeofInt.toNat = 4 := rfl
  rw [BitVec.toNat_mul, intToSize_ofNat h, hsize]
  omega

theorem turns_ofNat {k : Nat} (h : k < 2 ^ 31) : turns (BitVec.ofNat 32 k) = k := by
  rw [turns, toInt_ofNat h, Int.toNat_natCast]

theorem headerLen_ofNat {k : Nat} (h : 4 * k < 2 ^ 31) :
    headerLen (BitVec.ofNat 32 k) = BitVec.ofNat 32 (4 * k) := by
  apply BitVec.eq_of_toNat_eq
  rw [headerLen, sizeToInt, BitVec.toNat_setWidth, nbytes_ofNat (by omega), BitVec.toNat_ofNat]

section Pack

variable {rows : List (List CInt)} (hfit : 4 * rows.length + 4 * rows.flatten.length < 2 ^ 31)
include hfit

/-- The counts, added as `int`, are the number of entries. -/
theorem numEntries_countsOf :
    numEntries (nTargetOf rows) (countsOf rows) = .ok (BitVec.ofNat 32 rows.flatten.length) := by
  have hlen : turns (nTargetOf rows) = (countsOf rows).length := by
    rw [nTargetOf, turns_ofNat (by omega), countsOf, List.length_map]
  have hsum : ∀ (rows : List (List CInt)) (k : Nat),
      (countsOf rows).foldl (fun num nranks => num + nranks) (BitVec.ofNat 32 k) =
        BitVec.ofNat 32 (k + rows.flatten.length) := by
    intro rows
    induction rows with
    | nil => intro k; rfl
    | cons row rows ih =>
      intro k
      rw [countsOf, List.map_cons, List.foldl_cons, ← BitVec.ofNat_add]
      exact (ih _).trans (by simp [Nat.add_assoc])
  have hfold := hsum rows 0
  rw [Nat.zero_add] at hfold
  rw [numEntries, hlen, foldlM_load]
  exact congrArg Except.ok hfold

/-- `sm_seg_len` is the size of the packed table. -/
theorem smSegLen_countsOf : smSegLen (nTargetOf rows) (countsOf rows) =
    .ok (BitVec.ofNat 32 (4 * rows.length + 4 * rows.flatten.length)) := by
  have hzero : 0 + headerLen (nTargetOf rows) = BitVec.ofNat 32 (4 * rows.length) := by
    rw [nTargetOf, headerLen_ofNat (by omega)]
    exact BitVec.zero_add _
  rw [smSegLen, numEntries_countsOf hfit, ok_bind, hzero]
  congr 1
  apply BitVec.eq_of_toNat_eq
  rw [sizeToInt, BitVec.toNat_setWidth, BitVec.toNat_add, intToSize_ofNat (by omega),
    nbytes_ofNat (by omega), BitVec.toNat_ofNat]
  omega

end Pack

section Cursor

variable (lay : Layout CInt 4)

/-- The beginning of the packed table of `rows`, up to the end of the lists `done`. -/
def upTo (rows done : List (List CInt)) : List Byte :=
  lay.encAll (countsOf rows ++ done.flatten)

theorem upTo_nil (rows : List (List CInt)) : upTo lay rows [] = lay.encAll (countsOf rows) := by
  rw [upTo, List.flatten_nil, List.append_nil]

theorem upTo_self (rows : List (List CInt)) : upTo lay rows rows = image lay rows := rfl

theorem upTo_snoc (rows done : List (List CInt)) (row : List CInt) :
    upTo lay rows (done ++ [row]) = upTo lay rows done ++ lay.encAll row := by
  rw [upTo, upTo, ← lay.encAll_append, List.flatten_append, List.append_assoc]
  simp

theorem image_split {rows done rest : List (List CInt)} {row : List CInt}
    (h : rows = done ++ row :: rest) :
    image lay rows = upTo lay rows done ++ lay.encAll row ++ lay.encAll rest.flatten := by
  rw [← upTo_snoc, upTo, ← lay.encAll_append, image]
  congr 1
  rw [List.append_assoc]
  congr 1
  rw [h]
  simp

theorem length_image (rows : List (List CInt)) :
    (image lay rows).length = 4 * rows.length + 4 * rows.flatten.length := by
  rw [image, lay.length_encAll, List.length_append, countsOf, List.length_map, Nat.mul_add]

theorem load_row {rows done rest : List (List CInt)} {row : List CInt}
    (h : rows = done ++ row :: rest) : (load rows done.length : Except (Halt Rc) _) = .ok row := by
  rw [load_eq_ok, h]
  simp

theorem load_count {rows done rest : List (List CInt)} {row : List CInt}
    (h : rows = done ++ row :: rest) :
    (load (countsOf rows) done.length : Except (Halt Rc) _) = .ok (BitVec.ofNat 32 row.length) := by
  rw [load_eq_ok, countsOf, h]
  simp

variable {rows : List (List CInt)}

/-- The writer, with the lists `done` behind it: its cursor is at their end. -/
theorem packRows_from (hfit : ∀ row ∈ rows, row.length < 2 ^ 31) {done rest : List (List CInt)}
    (hrows : rows = done ++ rest) {tail : List Byte}
    (htail : tail.length = 4 * rest.flatten.length) :
    packRows lay (countsOf rows) rows rest.length done.length (upTo lay rows done).length
      (upTo lay rows done ++ tail) = .ok (image lay rows) := by
  induction rest generalizing done tail with
  | nil =>
    obtain rfl : tail = [] := List.eq_nil_of_length_eq_zero (by simpa using htail)
    rw [List.append_nil] at hrows ⊢
    rw [← hrows, upTo_self]
    rfl
  | cons row rest ih =>
    have hlen : row.length < 2 ^ 31 := hfit row (by simp [hrows])
    have hbytes : (intToSize (BitVec.ofNat 32 row.length) * sizeofInt).toNat =
        (lay.encAll row).length := by
      rw [nbytes_ofNat hlen, lay.length_encAll]
    have htail' : tail.length = 4 * row.length + 4 * rest.flatten.length := by
      rw [htail, List.flatten_cons, List.length_append, Nat.mul_add]
    have hmid : (tail.take (4 * row.length)).length = (lay.encAll row).length := by
      rw [lay.length_encAll, List.length_take]
      omega
    have hsplit : upTo lay rows done ++ tail =
        upTo lay rows done ++ tail.take (4 * row.length) ++ tail.drop (4 * row.length) := by
      rw [List.append_assoc, List.take_append_drop]
    have hrest : (tail.drop (4 * row.length)).length = 4 * rest.flatten.length := by
      rw [List.length_drop]
      omega
    have hrows' : rows = done ++ [row] ++ rest := by simp [hrows]
    have hnext := ih hrows' hrest
    rw [upTo_snoc, List.length_append, List.length_append, List.length_singleton] at hnext
    rw [List.length_cons, packRows, load_count hrows, ok_bind, load_row hrows, ok_bind, hbytes,
      hsplit, memmove_write hmid, ok_bind]
    exact hnext

/-- The reader, with the lists `done` rebuilt: its cursor is at their end. -/
theorem unpackRows_from (hfit : ∀ row ∈ rows, row.length < 2 ^ 31) {done rest : List (List CInt)}
    (hrows : rows = done ++ rest) :
    unpackRows lay (fun _ => true) (image lay rows) (countsOf rows) rest.length done.length
      (upTo lay rows done).length (done ++ List.replicate rest.length []) = .ok rows := by
  induction rest generalizing done with
  | nil =>
    rw [hrows]
    rfl
  | cons row rest ih =>
    have hlen : row.length < 2 ^ 31 := hfit row (by simp [hrows])
    have hbytes : (intToSize (BitVec.ofNat 32 row.length) * sizeofInt).toNat =
        (lay.encAll row).length := by
      rw [nbytes_ofNat hlen, lay.length_encAll]
    have hcalloc : (List.replicate (row.length * 4) (0 : Byte)).length =
        (lay.encAll row).length := by
      rw [lay.length_encAll, List.length_replicate, Nat.mul_comm]
    have hstore : (store (done ++ List.replicate (rest.length + 1) []) done.length row :
        Except (Halt Rc) _) = .ok (done ++ [row] ++ List.replicate rest.length []) := by
      rw [store_of_lt (by simp), List.replicate_succ]
      simp
    have hrows' : rows = done ++ [row] ++ rest := by simp [hrows]
    have hnext := ih hrows'
    rw [upTo_snoc, List.length_append, List.length_append, List.length_singleton] at hnext
    rw [List.length_cons, unpackRows, load_count hrows, ok_bind]
    simp only [Bool.true_eq_false, ↓reduceIte, intToSize_ofNat hlen, hbytes]
    rw [image_split lay hrows, memmove_read hcalloc, ok_bind, lay.decAll_encAll, hstore, ok_bind,
      ← image_split lay hrows]
    exact hnext

section RoundTrip

variable (hn : 1 ≤ rows.length) (hfit : 4 * rows.length + 4 * rows.flatten.length < 2 ^ 31)
include hn hfit

omit hn in
theorem row_fits : ∀ row ∈ rows, row.length < 2 ^ 31 := by
  intro row hrow
  have hle : row.length ≤ (rows.map List.length).sum :=
    List.le_sum_of_mem (List.mem_map_of_mem hrow)
  rw [← List.length_flatten] at hle
  omega

theorem nTargetOf_pos : ¬(nTargetOf rows).toInt ≤ 0 := by
  rw [nTargetOf, toInt_ofNat (by omega)]
  omega

omit hn in
theorem header_bytes :
    (intToSize (headerLen (nTargetOf rows))).toNat = (lay.encAll (countsOf rows)).length := by
  rw [nTargetOf, headerLen_ofNat (by omega), intToSize_ofNat (by omega), lay.length_encAll,
    countsOf, List.length_map]

/-- A segment of the right size ends up with the packed table, whatever it held. -/
theorem pack_ok {seg : List Byte}
    (hseg : seg.length = 4 * rows.length + 4 * rows.flatten.length) :
    pack lay (nTargetOf rows) (countsOf rows) rows seg = .ok (image lay rows) := by
  have hhead : (seg.take (4 * rows.length)).length = (lay.encAll (countsOf rows)).length := by
    rw [lay.length_encAll, countsOf, List.length_map, List.length_take]
    omega
  have htail : (seg.drop (4 * rows.length)).length = 4 * rows.flatten.length := by
    rw [List.length_drop]
    omega
  have hwrite : (memmove seg 0 (lay.encAll (countsOf rows)) 0 (lay.encAll (countsOf rows)).length :
      Except (Halt Rc) _) = .ok (upTo lay rows [] ++ seg.drop (4 * rows.length)) := by
    have h : (memmove ([] ++ seg.take (4 * rows.length) ++ seg.drop (4 * rows.length)) 0
        (lay.encAll (countsOf rows)) 0 (lay.encAll (countsOf rows)).length : Except (Halt Rc) _) =
          .ok ([] ++ lay.encAll (countsOf rows) ++ seg.drop (4 * rows.length)) :=
      memmove_write hhead
    rw [upTo_nil]
    rwa [List.nil_append, List.nil_append, List.take_append_drop] at h
  have hrows := packRows_from lay (row_fits hfit) (List.nil_append rows).symm htail
  rw [pack, if_neg (nTargetOf_pos hn hfit), header_bytes lay hfit]
  simp only [hwrite, ok_bind]
  rw [nTargetOf, turns_ofNat (by omega), ← upTo_nil lay rows]
  exact hrows

/-- The packed table is read back. -/
theorem unpack_ok :
    unpack lay (fun _ => true) (nTargetOf rows) (image lay rows) = .ok (countsOf rows, rows) := by
  have hn' : (intToSize (nTargetOf rows)).toNat = rows.length := intToSize_ofNat (by omega)
  have hcalloc : (List.replicate (rows.length * 4) (0 : Byte)).length =
      (lay.encAll (countsOf rows)).length := by
    rw [lay.length_encAll, countsOf, List.length_map, List.length_replicate, Nat.mul_comm]
  have hread : (memmove (List.replicate (rows.length * 4) 0) 0 (image lay rows) 0
      (lay.encAll (countsOf rows)).length : Except (Halt Rc) _) =
        .ok (lay.encAll (countsOf rows)) := by
    have h : (memmove (List.replicate (rows.length * 4) 0) 0
        ([] ++ lay.encAll (countsOf rows) ++ lay.encAll rows.flatten) 0
        (lay.encAll (countsOf rows)).length : Except (Halt Rc) _) =
          .ok (lay.encAll (countsOf rows)) := memmove_read hcalloc
    rwa [List.nil_append, ← lay.encAll_append] at h
  have hcounts : lay.decAll rows.length (lay.encAll (countsOf rows)) = countsOf rows := by
    have h := lay.decAll_encAll (countsOf rows)
    rwa [countsOf, List.length_map, ← countsOf] at h
  have hrows := unpackRows_from lay (row_fits hfit) (List.nil_append rows).symm
  rw [unpack, if_neg (nTargetOf_pos hn hfit), header_bytes lay hfit]
  simp only [Bool.true_eq_false, ↓reduceIte, hn', hread, ok_bind, hcounts]
  rw [nTargetOf, turns_ofNat (by omega), ← upTo_nil lay rows]
  rw [List.nil_append, List.length_nil] at hrows
  rw [hrows, ok_bind]

end RoundTrip

/-- What process 0 packs is `sm_seg_len` bytes long and does not depend on what the segment
held, and the others rebuild the table from it. -/
theorem pack_unpack (rows : List (List CInt)) (hn : 1 ≤ rows.length)
    (hfit : (4 * rows.length + 4 * (rows.map List.length).sum : Nat) ≤ intMax) :
    ∃ len : CInt, smSegLen (nTargetOf rows) (countsOf rows) = .ok len ∧
      len.toInt = (4 * rows.length + 4 * (rows.map List.length).sum : Nat) ∧
      (countsOf rows).map BitVec.toInt = rows.map (fun row => (row.length : Int)) ∧
      (image lay rows).length = (intToSize len).toNat ∧
      (∀ seg, seg.length = (intToSize len).toNat →
        pack lay (nTargetOf rows) (countsOf rows) rows seg = .ok (image lay rows)) ∧
      unpack lay (fun _ => true) (nTargetOf rows) (image lay rows) = .ok (countsOf rows, rows) := by
  rw [← List.length_flatten] at hfit ⊢
  have hfit' : 4 * rows.length + 4 * rows.flatten.length < 2 ^ 31 := by
    unfold intMax at hfit
    omega
  refine ⟨_, smSegLen_countsOf hfit', toInt_ofNat hfit', ?_, ?_, ?_, unpack_ok lay hn hfit'⟩
  · rw [countsOf, List.map_map]
    apply List.map_congr_left
    intro row hrow
    exact toInt_ofNat (row_fits hfit' row hrow)
  · rw [length_image, intToSize_ofNat hfit']
  · intro seg hseg
    rw [intToSize_ofNat hfit'] at hseg
    exact pack_ok lay hn hfit' hseg

end Cursor

def ints (rows : List (List Int)) : List (List CInt) :=
  rows.map fun row => row.map (BitVec.ofInt 32)

section Words

variable {n : Nat} {call : Call n} (lay : Layout CInt 4)

theorem countsOf_ints (rows : List (List Int)) :
    countsOf (ints rows) = (lengths rows).map (BitVec.ofInt 32) := by
  rw [countsOf, ints, lengths, List.map_map, List.map_map]
  apply List.map_congr_left
  intro row _
  simp [BitVec.ofInt_natCast]

/-- The words of the protocol's segment are those that the bytes of the packed table store. -/
theorem image_ints (rows : List (List Int)) : image lay (ints rows) =
    lay.encAll ((lengths rows ++ rows.flatten).map (BitVec.ofInt 32)) := by
  rw [image, countsOf_ints, List.map_append, ints, List.map_flatten]

/-- The size of the protocol's segment is that of the packed table. -/
theorem length_image_ints {rows : List (List Int)} (h : call.Fits rows) (hres : call.nres ≠ 0)
    (hlen : rows.length = call.nres) : (image lay (ints rows)).length = call.size rows := by
  have hheader := h.headerLen
  unfold Call.Fits at h
  have hsize : (call.size rows : Int) = call.headerLen + 4 * rows.flatten.length :=
    Call.size_of_room (by omega) (by omega)
  have hflat : (ints rows).flatten.length = rows.flatten.length := by
    rw [ints, List.length_flatten, List.length_flatten, List.map_map]
    simp [Function.comp_def]
  rw [length_image, hflat, ints, List.length_map, hlen]
  omega

end Words

/-- Three resources, the second one without processes. -/
theorem threeLists_pack : ∃ len : CInt,
    smSegLen (nTargetOf [[0, 2], [], [1]]) (countsOf [[0, 2], [], [1]]) = .ok len ∧
      len.toInt = 24 ∧ (image littleEndian [[0, 2], [], [1]]).length = (intToSize len).toNat ∧
      unpack littleEndian (fun _ => true) (nTargetOf [[0, 2], [], [1]])
        (image littleEndian [[0, 2], [], [1]]) =
          .ok (countsOf [[0, 2], [], [1]], [[0, 2], [], [1]]) := by
  obtain ⟨len, hlen, hval, -, himage, -, hunpack⟩ :=
    pack_unpack littleEndian [[0, 2], [], [1]] (by decide) (by decide)
  exact ⟨len, hlen, hval, himage, hunpack⟩

end LibQuo.AutoDistrib
