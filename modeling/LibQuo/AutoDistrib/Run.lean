import LibQuo.AutoDistrib.Table

/-!
The call replayed: process 0 for a given list of what it reads, the others on
the segment it publishes.
-/

namespace LibQuo.AutoDistrib
open CMem Sm Spmd

variable {n : Nat}

/-- The table of a process that gets `h` counts from the header, and zeros for the rest. -/
def cut (h : Nat) (rows : List (List Int)) : List (List Int) :=
  rows.take h ++ List.replicate (rows.length - h) []

theorem length_cut (h : Nat) (rows : List (List Int)) : (cut h rows).length = rows.length := by
  rw [cut, List.length_append, List.length_take, List.length_replicate]
  omega

theorem flatten_cut (h : Nat) (rows : List (List Int)) :
    (cut h rows).flatten = (rows.take h).flatten := by
  rw [cut, List.flatten_append]
  simp

theorem lengths_cut (h : Nat) (rows : List (List Int)) : lengths (cut h rows) =
    (lengths rows).take h ++ List.replicate (rows.length - h) 0 := by
  simp [lengths, cut]

/-- Nothing is lost if all counts are there. -/
theorem cut_of_le {h : Nat} {rows : List (List Int)} (hle : rows.length ≤ h) :
    cut h rows = rows := by
  rw [cut, List.take_of_length_le hle, Nat.sub_eq_zero_of_le hle]
  exact List.append_nil rows

def Act.onSegment : Act n → Prop
  | .sm _ | .readHeader | .readRow _ => True
  | _ => False

def Act.onTable : Act n → Prop
  | .callocNranks | .callocRankIds | .qidsBegin _ | .qidsEnd _ | .readHeader | .readRow _ => True
  | _ => False

/-- The copies to the segment, which go out of it if it is too short. -/
def Act.writes : Act n → Prop
  | .writeHeader | .writeRow _ => True
  | _ => False

namespace Call

variable (call : Call n) (E : Reads n)

/-- The steps that fail whatever can be allocated, and however long the segment is. -/
def dead : Act n → Bool
  | .entry => call.maxQids ≤ 0
  | .nobjsByType => call.nres == 0
  | .xchg .checkPlen => !call.segName.isOk
  | _ => false

/-- The steps that fail whatever process 0 reads. -/
def fails (p : Fin n) (a : Act n) : Bool := (call.fault p a).isSome || call.dead a

/-- A world with nothing but files. -/
def peerWorld (fs : Files) : World n := ⟨fun _ => ∅, fun _ => none, [], fs⟩

variable [NeZero n]

/-- The steps that fail if process 0 makes the table `rows`. -/
def failsFor (rows : List (List Int)) (p : Fin n) (a : Act n) : Bool :=
  call.fails p a || (p = 0 && call.lacks rows a)

/-- Process 0 after a part of its script. -/
def rootRun (d : List (Instr (Act n) Coll)) : Local × Shared n :=
  d.foldl (fun x i => match i with
    | .act a => call.rootAct E a x
    | .coll _ => x) (.fresh, .empty, [])

def published : Local × Shared n := call.rootRun E call.publishScript

def peerAct (p : Fin n) (a : Act n) (x : Local × Shared n) : Local × Shared n :=
  match call.perform p a x.1 (peerWorld (call.published E).2.1) with
  | (.ok loc, _) => (loc, x.2)
  | (.error _, _) => x

def reference : Reference n (Act n) Coll Local (World n) Msg (Shared n) where
  writer := 0
  shared := World.shared
  act p a x := if p = 0 then call.rootAct E a x else call.peerAct E p a x
  msg p c :=
    if p = 0 then
      match c with
      | .smBarrier => .nothing
      | .xchg .plen => .int (match call.segName with
          | .ok path => path.bytes.length + 1
          | .error e => -e.code)
      | .xchg .result => .path (call.published E).1.xchg.result
      | .smSegLen => .int (call.published E).1.smSegLen
    else .nothing
  fails := call.failsFor (call.rowsSeen E)

theorem reference_act_root (a : Act n) (x : Local × Shared n) :
    (call.reference E).act 0 a x = call.rootAct E a x := by simp [reference]

theorem reference_act_peer {p : Fin n} (hp : p ≠ 0) (a : Act n) (x : Local × Shared n) :
    (call.reference E).act p a x = call.peerAct E p a x := by simp [reference, hp]

/-! ## What a step depends on -/

variable {call E}

theorem exec_of_fault {p : Fin n} {a : Act n} {loc : Local} {w : World n} {e : Rc}
    (h : call.fault p a = some e) :
    call.protocol.exec p a loc w = (.error (.code e.code), w) := by
  simp [protocol, h]

theorem exec_of_noFault {p : Fin n} {a : Act n} {loc : Local} {w : World n}
    (h : call.fault p a = none) : call.protocol.exec p a loc w = call.perform p a loc w := by
  simp [protocol, h]

variable (call) in
/-- A step reads the files, and process 0 the bindings it queries. -/
theorem perform_congr {p : Fin n} {a : Act n} (loc : Local) {w v : World n}
    (hs : w.shared = v.shared)
    (hb : ∀ rid r, a = .qidsQuery rid r → w.binding r = v.binding r) :
    (call.perform p a loc w).1 = (call.perform p a loc v).1 ∧
      (call.perform p a loc w).2.shared = (call.perform p a loc v).2.shared := by
  obtain ⟨b, en, rd, fs⟩ := w
  obtain ⟨b', en', rd', fs'⟩ := v
  simp only [World.shared, Prod.mk.injEq] at hs
  obtain ⟨rfl, rfl⟩ := hs
  cases a with
  | qidsQuery rid r =>
    have := hb rid r rfl
    simp only at this
    simp only [perform, this, World.shared, and_self]
  | entry | nobjsByType | xchg a | decide =>
    simp only [perform]
    split <;> exact ⟨rfl, rfl⟩
  | sm a =>
    simp only [perform]
    split
    · exact ⟨rfl, rfl⟩
    · split <;> exact ⟨rfl, rfl⟩
  | writeHeader | writeRow i | readHeader | readRow i =>
    simp only [perform, withBase]
    split
    · exact ⟨rfl, rfl⟩
    · split <;> exact ⟨rfl, rfl⟩
  | _ => exact ⟨rfl, rfl⟩

/-- The steps of the other processes. -/
def peerPlace : Act n → Nat → Prop
  | .entry, k => k = 0
  | .nobjsByType, k => k = 1
  | .xchg _, k | .smConstruct, k | .callocNranks, k | .callocRankIds, k => k < 4
  | .sm a, k => k = 5 ∧ a ∈ attachScript
  | .readHeader, k | .readRow _, k | .decide, k => k = 6
  | _, _ => False

/-- The steps of process 0. -/
def rootPlace : Act n → Nat → Prop
  | .qidsQuery _ _, k => k = 3
  | .sm .cachePath, k | .sm .openCreate, k | .sm .ftruncate, k | .sm .mmap, k
  | .writeHeader, k | .writeRow _, k => k = 4
  | .sm .unlink, k | .decide, k => k = 6
  | .sm .openRdwr, _ | .readHeader, _ | .readRow _, _ => False
  | _, _ => True

variable (call) in
theorem placed_peer (p : Fin n) (hp : p ≠ 0) :
    Placed peerPlace 0 (call.protocol.script p) := by
  simp [protocol, hp, peerScript, readScript, awaitScript, UniqPath.peerScript, attachScript,
    placed_append, placed_acts, colls_acts, Placed, lift, peerPlace, forall_mem_perRes]

theorem placed_root : Placed rootPlace 0 (call.protocol.script 0) := by
  simp [protocol, rootScript, publishScript, tableScript, segmentScript, UniqPath.rootScript,
    createScript, placed_append, placed_acts, colls_acts, Placed, lift, rootPlace,
    forall_mem_perRes, forall_mem_queries]

variable (call) in
/-- Of the steps of the others, `open` looks at the directory, and the reads at the
stores. -/
theorem perform_peer {p : Fin n} {a : Act n} {k : Nat} (ha : peerPlace a k) (loc : Local)
    {w v : World n} (hd : a = .sm .openRdwr → w.files.dir = v.files.dir)
    (hs : a = .readHeader ∨ (∃ i, a = .readRow i) → w.files.store = v.files.store) :
    (call.perform p a loc w).1 = (call.perform p a loc v).1 ∧
      (call.perform p a loc w).2.shared = w.shared := by
  cases a with
  | entry | nobjsByType | xchg a | decide =>
    simp only [perform]
    split <;> exact ⟨rfl, rfl⟩
  | smConstruct | callocNranks | callocRankIds => exact ⟨rfl, rfl⟩
  | sm a =>
    obtain ⟨-, ha⟩ := ha
    have hne : a ≠ .ftruncate := by
      rintro rfl
      simp [attachScript] at ha
    have hfs : (Sm.exec call.keeps loc.xchg.result (toSize loc.smSegLen) a loc.smseg w.files).2 =
        w.files := exec_attach ha
    have hloc : (Sm.exec call.keeps loc.xchg.result (toSize loc.smSegLen) a loc.smseg w.files).1 =
        (Sm.exec call.keeps loc.xchg.result (toSize loc.smSegLen) a loc.smseg v.files).1 := by
      by_cases hopen : a = .openRdwr
      · subst hopen
        simp only [Sm.exec, hd rfl]
        split
        · rfl
        · split <;> rfl
      · exact exec_blind ha hopen
    simp only [perform, if_neg (fun h : a = .ftruncate ∧ _ => hne h.1)]
    generalize Sm.exec call.keeps loc.xchg.result (toSize loc.smSegLen) a loc.smseg w.files = y
      at *
    generalize Sm.exec call.keeps loc.xchg.result (toSize loc.smSegLen) a loc.smseg v.files = y'
      at *
    obtain ⟨r, fs⟩ := y
    obtain ⟨r', fs'⟩ := y'
    simp only at hfs hloc
    subst hfs hloc
    cases r <;> exact ⟨rfl, rfl⟩
  | readHeader | readRow i =>
    have hstore : w.files.store = v.files.store := hs (by simp)
    simp only [perform, withBase, Files.read, hstore]
    split
    · exact ⟨rfl, rfl⟩
    · split <;> exact ⟨rfl, rfl⟩
  | qidsBegin rid | qidsQuery rid r | qidsEnd rid | sumSegLen | writeHeader | writeRow i =>
    exact absurd ha id

/-- A step on the segment that succeeds there. -/
theorem perform_sm_ok {p : Fin n} {a : Sm.Act} {loc : Local} {w : World n} {h : Handle} {fs : Files}
    (hoff : a = .ftruncate → toSize loc.smSegLen < offLimit)
    (hx : Sm.exec call.keeps loc.xchg.result (toSize loc.smSegLen) a loc.smseg w.files =
      (.ok h, fs)) :
    call.perform p (.sm a) loc w = (.ok { loc with smseg := h }, { w with files := fs }) := by
  simp only [perform, if_neg (fun hlarge : a = .ftruncate ∧ offLimit ≤ toSize loc.smSegLen =>
    absurd (hoff hlarge.1) (not_lt.mpr hlarge.2)), hx]

/-- A step on the segment, as a step of the call. -/
theorem of_perform_sm {p : Fin n} {b : Sm.Act} {loc loc' : Local} {w w' : World n}
    (h : call.perform p (.sm b) loc w = (.ok loc', w')) : ∃ h' fs,
      Sm.exec call.keeps loc.xchg.result (toSize loc.smSegLen) b loc.smseg w.files = (.ok h', fs) ∧
      loc' = { loc with smseg := h' } ∧ w' = { w with files := fs } := by
  simp only [perform] at h
  split at h
  · simp at h
  · split at h
    · simp at h
    · next h' fs hx =>
      obtain ⟨hloc, hw⟩ := Prod.mk.inj h
      exact ⟨h', fs, hx, (Except.ok.inj hloc).symm, hw.symm⟩

omit [NeZero n] in
/-- A copy that stays inside the segment. -/
theorem of_withBase {loc loc' : Local} {w w' : World n} {stop : Nat} {f : Nat → Local × Files}
    (h : withBase loc w stop f = (.ok loc', w')) :
    ∃ i, loc' = (f i).1 ∧ w' = { w with files := (f i).2 } := by
  simp only [withBase] at h
  split at h
  · simp at h
  · split at h
    · simp at h
    · next i _ _ =>
      obtain ⟨hloc, hw⟩ := Prod.mk.inj h
      exact ⟨i, (Except.ok.inj hloc).symm, hw.symm⟩

/-- What a step leaves alone. -/
structure Frame (a : Act n) (loc loc' : Local) (w w' : World n) : Prop where
  xchg : (∀ b, a ≠ .xchg b) → loc'.xchg = loc.xchg
  smseg : (∀ b, a = .sm b → b = .unlink) → a ≠ .smConstruct → loc'.smseg = loc.smseg
  smSegLen : a ≠ .sumSegLen → loc'.smSegLen = loc.smSegLen
  table : ¬a.onTable → loc'.nranksInRes = loc.nranksInRes ∧ loc'.rankIdsInRes = loc.rankIdsInRes
  reads : (∀ rid r, a ≠ .qidsQuery rid r) → w'.reads = w.reads

theorem perform_frame {p : Fin n} {a : Act n} {loc loc' : Local} {w w' : World n}
    (h : call.perform p a loc w = (.ok loc', w')) : Frame a loc loc' w w' := by
  cases a with
  | sm b =>
    obtain ⟨h', fs, hx, rfl, rfl⟩ := of_perform_sm h
    refine ⟨fun _ => rfl, fun hb _ => ?_, fun _ => rfl, fun _ => ⟨rfl, rfl⟩, fun _ => rfl⟩
    rw [hb b rfl] at hx
    exact exec_unlink_handle hx
  | writeHeader | writeRow k =>
    obtain ⟨i, rfl, rfl⟩ := of_withBase h
    exact ⟨fun _ => rfl, fun _ _ => rfl, fun _ => rfl, fun _ => ⟨rfl, rfl⟩, fun _ => rfl⟩
  | readHeader | readRow k =>
    obtain ⟨i, rfl, rfl⟩ := of_withBase h
    exact ⟨fun _ => rfl, fun _ _ => rfl, fun _ => rfl, fun hne => absurd trivial hne,
      fun _ => rfl⟩
  | xchg b =>
    simp only [perform] at h
    split at h
    · simp at h
    · obtain ⟨rfl, rfl⟩ := by simpa using h
      exact ⟨fun hne => absurd rfl (hne b), fun _ _ => rfl, fun _ => rfl, fun _ => ⟨rfl, rfl⟩,
        fun _ => rfl⟩
  | entry | nobjsByType | decide =>
    simp only [perform] at h
    split at h <;> simp at h
    obtain ⟨rfl, rfl⟩ := h
    exact ⟨fun _ => rfl, fun _ _ => rfl, fun _ => rfl, fun _ => ⟨rfl, rfl⟩, fun _ => rfl⟩
  | smConstruct =>
    obtain ⟨rfl, rfl⟩ := by simpa [perform] using h
    exact ⟨fun _ => rfl, fun _ hne => absurd rfl hne, fun _ => rfl, fun _ => ⟨rfl, rfl⟩,
      fun _ => rfl⟩
  | sumSegLen =>
    obtain ⟨rfl, rfl⟩ := by simpa [perform] using h
    exact ⟨fun _ => rfl, fun _ _ => rfl, fun hne => absurd rfl hne, fun _ => ⟨rfl, rfl⟩,
      fun _ => rfl⟩
  | qidsQuery rid r =>
    obtain ⟨rfl, rfl⟩ := by simpa [perform] using h
    exact ⟨fun _ => rfl, fun _ _ => rfl, fun _ => rfl, fun _ => ⟨rfl, rfl⟩,
      fun hne => absurd rfl (hne rid r)⟩
  | callocNranks | callocRankIds | qidsBegin rid | qidsEnd rid =>
    obtain ⟨rfl, rfl⟩ := by simpa [perform] using h
    exact ⟨fun _ => rfl, fun _ _ => rfl, fun _ => rfl, fun hne => absurd trivial hne,
      fun _ => rfl⟩

/-- A step of the replay of process 0 fails and is taken back, or is a step. -/
theorem rootAct_cases (a : Act n) (x : Local × Shared n) : call.rootAct E a x = x ∨
    ∃ loc w, call.perform 0 a x.1 (rootWorld E x.2) = (.ok loc, w) ∧
      call.rootAct E a x = (loc, w.shared) := by
  unfold rootAct
  cases h : call.perform 0 a x.1 (rootWorld E x.2) with
  | mk r w =>
    cases r with
    | error e => exact .inl rfl
    | ok loc => exact .inr ⟨loc, w, rfl, rfl⟩

/-- What a step of process 0 leaves alone in the replay. -/
theorem rootAct_frame (a : Act n) (x : Local × Shared n) :
    Frame a x.1 (call.rootAct E a x).1 (rootWorld E x.2) (rootWorld E (call.rootAct E a x).2) := by
  rcases call.rootAct_cases (E := E) a x with h | ⟨loc, w, hx, h⟩
  · rw [h]
    exact ⟨fun _ => rfl, fun _ _ => rfl, fun _ => rfl, fun _ => ⟨rfl, rfl⟩, fun _ => rfl⟩
  · rw [h]
    have hframe := perform_frame hx
    exact ⟨hframe.xchg, hframe.smseg, hframe.smSegLen, hframe.table, hframe.reads⟩

/-! ## Process 0 publishes its table -/

/-- The steps of process 0 that fail for what it reads, whatever can be allocated. -/
def stops (call : Call n) (E : Reads n) (a : Act n) : Bool :=
  call.dead a || call.lacks (call.rowsSeen E) a

/-- The steps of process 0 fail only for what it reads, and with a code unless they write. -/
def RootReady (call : Call n) (E : Reads n) (a : Act n) (x : Local × Shared n) : Prop :=
  a ≠ .decide → (call.perform 0 a x.1 (rootWorld E x.2)).1.isOk = !call.stops E a ∧
    ∀ e, (call.perform 0 a x.1 (rootWorld E x.2)).1 = .error e → ¬a.writes → ∃ c, e = .code c

structure Tabled (call : Call n) (E : Reads n) (loc : Local) : Prop where
  counts : loc.nranksInRes = lengths (call.rowsSeen E)
  rows : loc.rankIdsInRes = call.rowsSeen E

theorem flatten_take_succ (rows : List (List Int)) (k : Nat) :
    (rows.take (k + 1)).flatten = (rows.take k).flatten ++ rows.getD k [] := by
  rw [List.take_add_one, List.flatten_append, List.getD_eq_getElem?_getD]
  cases rows[k]? <;> simp

theorem flatten_split (rows : List (List Int)) (k : Nat) :
    rows.flatten = (rows.take k).flatten ++ rows.getD k [] ++ (rows.drop (k + 1)).flatten := by
  rw [← flatten_take_succ, ← List.flatten_append, List.take_append_drop]

/-- Store 0 begins with `xs`. -/
def Holds (fs : Files) (xs : List Int) : Prop :=
  ∀ j, j < xs.length → (fs.store 0).cell j = xs[j]?

/-- Process 0 has a path, and a segment at it with room for its header. -/
structure Segment (call : Call n) (E : Reads n) (x : Local × Shared n) (path : Path) : Prop where
  name : call.segName = .ok path
  result : x.1.xchg.result = some path
  tabled : Tabled call E x.1
  seglen : toSize x.1.smSegLen = call.size (call.rowsSeen E)
  nonempty : call.size (call.rowsSeen E) ≠ 0
  below : call.size (call.rowsSeen E) < offLimit
  header : toSize call.headerLen ≤ call.size (call.rowsSeen E)
  handle : x.1.smseg = .mapped path (call.size (call.rowsSeen E)) 0
  linked : x.2.1.dir path = some 0
  sized : (x.2.1.store 0).size = call.size (call.rowsSeen E)

structure Published (call : Call n) (E : Reads n) (x : Local × Shared n) (path : Path) : Prop
    extends Segment call E x path where
  room : 4 * (call.headerInts + (call.rowsSeen E).flatten.length) ≤ call.size (call.rowsSeen E)
  holds : Holds x.2.1
    ((lengths (call.rowsSeen E)).take call.headerInts ++ (call.rowsSeen E).flatten)

theorem holds_write (fs : Files) (xs : List Int) : Holds (fs.write 0 0 xs) xs := by
  intro j hj
  have hcell := fs.cell_write_self 0 0 xs hj
  rwa [Nat.zero_add] at hcell

theorem Holds.append {fs : Files} {xs ys : List Int} (h : Holds fs xs) :
    Holds (fs.write 0 xs.length ys) (xs ++ ys) := by
  intro j hj
  by_cases hlt : j < xs.length
  · rw [fs.cell_write_lt 0 _ _ hlt, h j hlt, List.getElem?_append_left hlt]
  · obtain ⟨i, rfl⟩ := Nat.exists_eq_add_of_le (not_lt.mp hlt)
    have hi : i < ys.length := by simpa using hj
    rw [fs.cell_write_self 0 _ _ hi, List.getElem?_append_right (Nat.le_add_right _ _),
      Nat.add_sub_cancel_left]

theorem Holds.left {fs : Files} {xs ys : List Int} (h : Holds fs (xs ++ ys)) : Holds fs xs := by
  intro j hj
  rw [h j (by simp; omega), List.getElem?_append_left hj]

theorem Holds.slice {fs : Files} {xs ys zs : List Int} (h : Holds fs (xs ++ ys ++ zs)) {j : Nat}
    (hj : j < ys.length) : (fs.store 0).cell (xs.length + j) = ys[j]? := by
  rw [h _ (by simp; omega), List.getElem?_append_left (by simp; omega),
    List.getElem?_append_right (Nat.le_add_right _ _), Nat.add_sub_cancel_left]

theorem Holds.read {fs : Files} {xs ys zs : List Int} (h : Holds fs (xs ++ ys ++ zs)) :
    fs.read 0 xs.length ys.length = ys :=
  Files.read_eq fs 0 xs.length ys fun _ hj => h.slice hj

theorem Holds.written {fs : Files} {xs ys zs : List Int} (h : Holds fs (xs ++ ys ++ zs)) {j : Nat}
    (hj : j < ys.length) : (fs.store 0).cell (xs.length + j) ≠ none := by
  rw [h.slice hj, List.getElem?_eq_getElem hj]
  simp

theorem set_row {rows : List (List Int)} {k : Nat} (hk : k < rows.length) :
    (rows.take k ++ List.replicate (rows.length - k) []).set k (rows.getD k []) =
      rows.take (k + 1) ++ List.replicate (rows.length - (k + 1)) [] := by
  obtain ⟨m, hm⟩ : ∃ m, rows.length - k = m + 1 := ⟨rows.length - k - 1, by omega⟩
  have hm' : rows.length - (k + 1) = m := by omega
  rw [hm, hm', List.replicate_succ, List.set_append_right _ _ (by simp), List.length_take,
    Nat.min_eq_left hk.le, Nat.sub_self, List.set_cons_zero, List.take_succ_eq_append_getElem hk,
    List.append_assoc, List.singleton_append]
  simp [hk]

section Root

variable {B : Local × Shared n → Prop} {x : Local × Shared n} {t : List (Instr (Act n) Coll)}
variable {a : Act n} {loc : Local} {w : World n}

abbrev RootWp (call : Call n) (E : Reads n) (xs : List (Instr (Act n) Coll))
    (B : Local × Shared n → Prop) (x : Local × Shared n) : Prop :=
  wp call.protocol (call.reference E) (call.RootReady E) (fun _ _ => True) 0 xs B x

theorem rootReady_of_ok (h : call.perform 0 a x.1 (rootWorld E x.2) = (.ok loc, w))
    (hd : call.stops E a = false) : RootReady call E a x :=
  fun _ => ⟨by rw [h, hd]; rfl, fun e he => by simp [h] at he⟩

theorem rootWp_act (h : call.perform 0 a x.1 (rootWorld E x.2) = (.ok loc, w))
    (hd : call.stops E a = false) (ht : RootWp call E t B (loc, w.shared)) :
    RootWp call E (.act a :: t) B x := by
  refine ⟨rootReady_of_ok h hd, fun _ => ?_⟩
  have : (call.reference E).act 0 a x = (loc, w.shared) := by simp [reference, rootAct, h]
  rw [this]
  exact ht

theorem rootWp_dead {e : Halt Int} (h : (call.perform 0 a x.1 (rootWorld E x.2)).1 = .error e)
    (hd : call.stops E a = true) (hcode : ¬a.writes → ∃ c, e = .code c) :
    RootWp call E (.act a :: t) B x := by
  refine ⟨fun _ => ⟨by rw [h, hd]; rfl, fun e' he => ?_⟩, fun hf => ?_⟩
  · rw [h] at he
    exact Except.error.inj he ▸ hcode
  simp only [reference, failsFor, fails, decide_true, Bool.true_and, Bool.or_assoc] at hf
  rw [← stops, hd, Bool.or_true] at hf
  exact absurd hf (by decide)

theorem rootWp_coll {c : Coll} (ht : RootWp call E t B x) : RootWp call E (.coll c :: t) B x := by
  have : advance call.protocol (call.reference E) 0 x (.coll c) = x := by
    simp [advance, protocol]
  rw [RootWp, wp, this]
  exact ⟨trivial, ht⟩

variable (call E) in
/-- Up to the arrays being there. -/
theorem rootWp_begin
    (h : ∀ path x, call.segName = .ok path → x.1.xchg.result = some path →
      x.1.nranksInRes.length = call.nres → x.1.rankIdsInRes.length = call.nres →
      x.2 = (.empty, []) → RootWp call E t B x) :
    RootWp call E (([.act .entry, .coll .smBarrier, .act .nobjsByType] :
        List (Instr (Act n) Coll)) ++
      UniqPath.rootScript.map (lift Act.xchg Coll.xchg) ++
      ([.act .smConstruct, .act .callocNranks, .act .callocRankIds] :
        List (Instr (Act n) Coll)) ++ t)
      B (.fresh, .empty, []) := by
  by_cases hmax : call.maxQids ≤ 0
  · exact rootWp_dead (by simp only [perform, if_pos hmax]; rfl) (by simp [stops, dead, hmax])
      fun _ => ⟨_, rfl⟩
  refine rootWp_act (by simp only [perform, if_neg hmax]; rfl)
    (by simp [stops, dead, lacks, hmax]) <| rootWp_coll ?_
  cases hnobjs : call.nobjs with
  | error e =>
    exact rootWp_dead (by simp only [perform, hnobjs]; rfl) (by simp [stops, dead, nres, hnobjs])
      fun _ => ⟨_, rfl⟩
  | ok k =>
    cases k with
    | zero =>
      exact rootWp_dead (by simp only [perform, hnobjs]; rfl) (by simp [stops, dead, nres, hnobjs])
        fun _ => ⟨_, rfl⟩
    | succ k =>
      refine rootWp_act (by simp only [perform, hnobjs]; rfl)
        (by simp [stops, dead, lacks, nres, hnobjs]) ?_
      cases hname : call.segName with
      | error e =>
        have he := e.code_pos
        refine rootWp_act (by simp only [perform, UniqPath.execRoot, hname]; rfl) rfl <|
          rootWp_coll <| rootWp_dead (e := .code e.code) ?_ (by simp [stops, dead, hname,
            Except.isOk, Except.toBool]) fun _ => ⟨_, rfl⟩
        · simp [perform, UniqPath.execRoot, World.shared, rootWorld, he.ne']
      | ok path =>
        refine rootWp_act (by simp only [perform, UniqPath.execRoot, hname]; rfl) rfl <|
          rootWp_coll <| rootWp_act rfl (by simp [stops, dead, lacks, hname, Except.isOk,
            Except.toBool]) <| rootWp_coll <| rootWp_act rfl rfl <| rootWp_act rfl rfl <|
          rootWp_act rfl rfl <| h path _ hname rfl ?_ ?_ rfl
        · simp
        · simp

/-- The queries fill the table. -/
theorem rootWp_queries (hcounts : x.1.nranksInRes.length = call.nres)
    (hrows : x.1.rankIdsInRes.length = call.nres) (hreads : x.2.2 = [])
    (h : ∀ y, y.1.xchg = x.1.xchg → y.2.1 = x.2.1 → Tabled call E y.1 → RootWp call E t B y) :
    RootWp call E (call.queries.map .act ++ t) B x := by
  obtain ⟨smpranks, hrun⟩ := rootActs_queries (E := E) hcounts hrows hreads
  refine wp_append.mpr (wp_acts_of_forall ?_ ?_)
  · rw [forall_mem_queries]
    exact fun rid _ => ⟨fun _ => rootReady_of_ok rfl rfl, fun _ _ => rootReady_of_ok rfl rfl,
      fun _ => rootReady_of_ok rfl rfl⟩
  · simp only [reference_act_root]
    rw [← rootActs, hrun]
    exact h _ rfl rfl ⟨rfl, rfl⟩

/-- The segment is made, and the header written. -/
theorem rootWp_segment {path : Path} (hname : call.segName = .ok path)
    (hresult : x.1.xchg.result = some path) (hfs : x.2.1 = .empty) (htab : Tabled call E x.1)
    (h : ∀ y, Segment call E y path → y.1.tabp = call.headerInts →
      Holds y.2.1 ((lengths (call.rowsSeen E)).take call.headerInts) → RootWp call E t B y) :
    RootWp call E ([Instr.act Act.sumSegLen, Instr.coll Coll.smSegLen] ++
      createScript.map (Instr.act ∘ Act.sm) ++ [Instr.act Act.writeHeader] ++ t) B x := by
  obtain ⟨loc, fs, rd⟩ := x
  obtain ⟨hcounts, hrows⟩ := htab
  simp only at hresult hfs hcounts hrows
  subst hfs
  have hsize : toSize (call.segLen loc.nranksInRes.sum) = call.size (call.rowsSeen E) := by
    rw [hcounts, sum_lengths]
    rfl
  refine rootWp_act rfl rfl <| rootWp_coll <|
    rootWp_act (perform_sm_ok (by simp) (exec_cachePath hresult)) rfl <|
    rootWp_act (perform_sm_ok (by simp) (exec_openCreate rfl)) rfl ?_
  by_cases hbelow : offLimit ≤ call.size (call.rowsSeen E)
  · refine rootWp_dead (e := .code Rc.errSys.code) ?_ (by
      simp only [stops, lacks, decide_eq_true hbelow, Bool.or_true]) fun _ => ⟨_, rfl⟩
    simp only [perform, hsize, hbelow, and_self, if_pos]
  refine rootWp_act (perform_sm_ok (fun _ => by rw [← not_le]; simpa only [hsize] using hbelow)
    (exec_ftruncate rfl))
    (by simp only [stops, dead, lacks, decide_eq_false hbelow, Bool.or_false]) ?_
  by_cases hzero : call.size (call.rowsSeen E) = 0
  · refine rootWp_dead (e := .code Rc.errSys.code) ?_ (by
      simp only [stops, lacks, decide_eq_true hzero, Bool.or_true]) fun _ => ⟨_, rfl⟩
    simp [perform, Sm.exec, hsize, hzero]
  refine rootWp_act (perform_sm_ok (by simp) (exec_mmap (by simpa only [hsize] using hzero)))
    (by simp only [stops, dead, lacks, decide_eq_false hzero, Bool.or_false]) ?_
  by_cases hheader : call.size (call.rowsSeen E) < toSize call.headerLen
  · refine rootWp_dead (e := .fault .outOfBounds) ?_ (by
      simp only [stops, lacks, decide_eq_true hheader, Bool.or_true]) (absurd trivial)
    simp [perform, withBase, rootWorld, World.shared, Files.truncate, hsize, hheader]
  refine rootWp_act (by
      simp only [perform, withBase, rootWorld, World.shared, Files.truncate, Files.create_empty,
        Function.update_self, hsize, if_neg hheader]
      rfl) (by simp only [stops, dead, lacks, decide_eq_false hheader, Bool.or_false]) ?_
  refine h _ ⟨hname, hresult, ⟨hcounts, hrows⟩, ?_, hzero, not_le.mp hbelow,
    not_lt.mp hheader, ?_, ?_, ?_⟩ rfl ?_
  · simpa using hsize
  · simp [Handle.mapped]
  · simp [World.shared]
  · simp [World.shared]
  · rw [← hcounts]
    exact holds_write _ _

/-- The first `k` rows are behind the header. -/
structure RowsWritten (call : Call n) (E : Reads n) (path : Path) (k : Nat)
    (x : Local × Shared n) : Prop where
  segment : Segment call E x path
  tabp : x.1.tabp = call.headerInts + ((call.rowsSeen E).take k).flatten.length
  room : 4 * (call.headerInts + ((call.rowsSeen E).take k).flatten.length) ≤
    call.size (call.rowsSeen E)
  holds : Holds x.2.1 ((lengths (call.rowsSeen E)).take call.headerInts ++
    ((call.rowsSeen E).take k).flatten)

omit [NeZero n] in
/-- Where the copy of the next row ends. -/
theorem RowsWritten.stop {path : Path} {k : Nat} (h : RowsWritten call E path k x) :
    4 * (x.1.tabp + (x.1.nranksInRes.getD k 0).toNat) =
      4 * (call.headerInts + ((call.rowsSeen E).take (k + 1)).flatten.length) := by
  rw [h.tabp, h.segment.tabled.counts, getD_lengths, flatten_take_succ, List.length_append,
    Nat.add_assoc]

/-- The copy of a row fails if it goes out of the segment. -/
theorem RowsWritten.ready {path : Path} {k : Nat} (h : RowsWritten call E path k x) :
    RootReady call E (.writeRow k) x := by
  refine fun _ => ⟨?_, fun _ _ => absurd trivial⟩
  simp only [perform, withBase, h.segment.handle, Handle.mapped, rootWorld, h.segment.sized,
    h.stop, stops, dead, lacks, Bool.false_or]
  split
  · next hlt =>
    rw [decide_eq_true hlt]
    rfl
  · next hge =>
    rw [decide_eq_false hge]
    rfl

theorem RowsWritten.step {path : Path} {k : Nat} (h : RowsWritten call E path k x)
    (hlacks : call.lacks (call.rowsSeen E) (.writeRow k : Act n) = false) :
    RowsWritten call E path (k + 1) ((call.reference E).act 0 (.writeRow k) x) := by
  have hstop := h.stop
  obtain ⟨loc, fs, rd⟩ := x
  obtain ⟨⟨hname, hresult, ⟨hcounts, hrows⟩, hsl, hne, hbelow, hhead, hhandle, hlink, hsized⟩,
    htabp, -, hholds⟩ := h
  simp only at htabp hcounts hrows hhandle hsized hholds hstop
  have hle : call.headerInts ≤ call.nres := headerInts_le (hhead.trans_lt hbelow)
  have hlen : ((lengths (call.rowsSeen E)).take call.headerInts).length = call.headerInts := by
    rw [List.length_take, length_lengths, length_rowsSeen, Nat.min_eq_left hle]
  have hcount : (loc.nranksInRes.getD k 0).toNat = ((call.rowsSeen E).getD k []).length := by
    rw [hcounts, getD_lengths]
  have hnext : 4 * (call.headerInts + ((call.rowsSeen E).take (k + 1)).flatten.length) ≤
      call.size (call.rowsSeen E) := by
    simp only [lacks, decide_eq_false_iff_not] at hlacks
    exact not_lt.mp hlacks
  have hact : (call.reference E).act 0 (.writeRow k) (loc, fs, rd) =
      ({ loc with tabp := loc.tabp + ((call.rowsSeen E).getD k []).length },
        fs.write 0 loc.tabp ((call.rowsSeen E).getD k []), rd) := by
    rw [hcount] at hstop
    have hin : ¬ call.size (call.rowsSeen E) <
        4 * (loc.tabp + ((call.rowsSeen E).getD k []).length) := by
      rw [hstop]
      exact not_lt.mpr hnext
    simp only [reference, rootAct, perform, withBase, hhandle, Handle.mapped, hcount, hrows,
      rootWorld, hsized, World.shared, List.take_length, if_pos, if_neg hin]
  rw [hact]
  refine ⟨⟨hname, hresult, ⟨hcounts, hrows⟩, hsl, hne, hbelow, hhead, hhandle, hlink, ?_⟩, ?_,
    hnext, ?_⟩
  · simpa using hsized
  · simp only [flatten_take_succ, htabp, List.length_append]
    omega
  · have happend : Holds _ (_ ++ (call.rowsSeen E).getD k []) := hholds.append
    rw [List.length_append, hlen, ← htabp, List.append_assoc, ← flatten_take_succ] at happend
    exact happend

omit [NeZero n] in
theorem RowsWritten.published {path : Path} (h : RowsWritten call E path call.nres x) :
    Published call E x path := by
  have hall : (call.rowsSeen E).take call.nres = call.rowsSeen E :=
    List.take_of_length_le (call.length_rowsSeen E).le
  obtain ⟨hseg, -, hroom, hholds⟩ := h
  rw [hall] at hroom hholds
  exact ⟨hseg, hroom, hholds⟩

/-- The rows are written. -/
theorem rootWp_rows {path : Path} (hx : Segment call E x path)
    (htabp : x.1.tabp = call.headerInts)
    (hheader : Holds x.2.1 ((lengths (call.rowsSeen E)).take call.headerInts))
    (h : ∀ y, Published call E y path → RootWp call E t B y) :
    RootWp call E ((call.perRes .writeRow).map .act ++ t) B x := by
  have hnone : RowsWritten call E path 0 x := ⟨hx, by simpa using htabp,
    by simpa using four_headerInts_le.trans hx.header, by simpa using hheader⟩
  refine wp_append.mpr (wp_mono (wp_range hnone (fun _ _ _ hI => hI.ready) ?_)
    fun y hy => h y hy.published)
  intro k y _ hI hok
  exact hI.step (by simpa using (Bool.or_eq_false_iff.mp hok).2)

variable (call E) in
/-- Process 0 publishes its table, unless a step fails. -/
theorem rootWp_publish (h : ∀ path y, Published call E y path → RootWp call E t B y) :
    RootWp call E (call.publishScript ++ t) B (.fresh, .empty, []) := by
  simp only [publishScript, tableScript, segmentScript, List.append_assoc]
  have hbegin := rootWp_begin call E (B := B)
    (t := call.queries.map Instr.act ++ ([Instr.act Act.sumSegLen, Instr.coll Coll.smSegLen] ++
      createScript.map (Instr.act ∘ Act.sm) ++ [Instr.act Act.writeHeader] ++
      ((call.perRes .writeRow).map Instr.act ++ t))) ?_
  · simp only [List.append_assoc] at hbegin
    exact hbegin
  · rintro path ⟨loc, fs, rd⟩ hname hresult hcounts hrows hshared
    obtain ⟨rfl, rfl⟩ := Prod.mk.inj hshared
    refine rootWp_queries hcounts hrows rfl fun y hxchg hfs htab => ?_
    exact rootWp_segment hname (by rw [hxchg, hresult]) hfs htab fun z hseg htabp hheader =>
      rootWp_rows hseg htabp hheader fun u hu => h path u hu

variable (call E) in
theorem rootWp_script : RootWp call E call.rootScript (fun _ => True) (.fresh, .empty, []) := by
  refine rootWp_publish call E fun path y hy => rootWp_coll <| rootWp_coll <| rootWp_act
    (perform_sm_ok (by simp) (by simp only [Sm.exec, hy.handle, Handle.mapped]; rfl)) rfl
    ⟨fun h => absurd rfl h, fun _ => trivial⟩

end Root

/-- Everything process 0 does up to publishing the table succeeds. -/
def Publishes (call : Call n) (E : Reads n) : Prop :=
  ∀ a, .act a ∈ call.publishScript → call.failsFor (call.rowsSeen E) 0 a = false

theorem replay_root (d : List (Instr (Act n) Coll)) :
    replay call.protocol (call.reference E) 0 d = call.rootRun E d := by
  unfold replay rootRun
  congr 1
  funext x i
  cases i with
  | act a => simp [advance, reference]
  | coll c => simp [advance, protocol]

theorem published_of (h : Publishes call E) : ∃ path, Published call E (call.published E) path := by
  have hwp : RootWp call E call.publishScript (fun y => ∃ path, Published call E y path)
      (.fresh, .empty, []) := by
    have := rootWp_publish call E (t := [])
      (B := fun y => ∃ path, Published call E y path) fun path y hy => ⟨path, hy⟩
    rwa [List.append_nil] at this
  rw [published, ← replay_root]
  exact wp_end hwp h

/-! ## The others read it -/

def rowsRead (call : Call n) (E : Reads n) : List (List Int) :=
  cut call.headerInts (call.rowsSeen E)

omit [NeZero n] in
/-- The table that is read is a part of what is in the segment. -/
theorem Published.holds_read {y : Local × Shared n} {path : Path} (h : Published call E y path) :
    Holds y.2.1 ((lengths (call.rowsSeen E)).take call.headerInts ++
      (call.rowsRead E).flatten) := by
  have hholds := h.holds
  rw [← List.take_append_drop call.headerInts (call.rowsSeen E), List.flatten_append,
    ← List.append_assoc, List.take_append_drop] at hholds
  rw [rowsRead, flatten_cut]
  exact hholds.left

omit [NeZero n] in
theorem Published.room_read {y : Local × Shared n} {path : Path} (h : Published call E y path)
    (k : Nat) : 4 * (call.headerInts + ((call.rowsRead E).take k).flatten.length) ≤
      call.size (call.rowsSeen E) := by
  have hk := length_flatten_take_le (call.rowsRead E) k
  have hread := length_flatten_take_le (call.rowsSeen E) call.headerInts
  have hroom := h.room
  rw [rowsRead, flatten_cut] at hk
  rw [rowsRead]
  omega

omit [NeZero n] in
theorem Published.headerInts_le {y : Local × Shared n} {path : Path}
    (h : Published call E y path) : call.headerInts ≤ call.nres :=
  Call.headerInts_le (h.header.trans_lt h.below)

/-- What an opening or reading step finds: a store of the right size at the path, and
cells that were written. -/
def Sees (call : Call n) (loc : Local) (fs : Files) : Act n → Prop
  | .sm .openRdwr => ∃ path, loc.smseg.path = some path ∧ fs.dir path = some 0 ∧
      (fs.store 0).size = loc.smseg.segSize
  | .readHeader => ∃ i, loc.smseg.segBasep = some i ∧
      ∀ j < call.headerInts, (fs.store i).cell j ≠ none
  | .readRow k => ∃ i, loc.smseg.segBasep = some i ∧
      ∀ j < (loc.nranksInRes.getD k 0).toNat, (fs.store i).cell (loc.tabp + j) ≠ none
  | _ => True

/-- The steps of the others fail only if they are dead, and those on the segment see
what they need once it is published. -/
def PeerReady (call : Call n) (E : Reads n) (p : Fin n) (a : Act n) (x : Local × Shared n) : Prop :=
  a ≠ .decide → (a.onSegment → Publishes call E) →
    (call.perform p a x.1 (peerWorld (call.published E).2.1)).1.isOk = !call.dead a ∧
      Sees call x.1 (call.published E).2.1 a

omit [NeZero n] in
/-- Row `k` is behind the header and the rows before it. -/
theorem Published.holds_row {y : Local × Shared n} {path : Path} (h : Published call E y path)
    (k : Nat) : ∃ zs, Holds y.2.1
      ((lengths (call.rowsSeen E)).take call.headerInts ++ ((call.rowsRead E).take k).flatten ++
        (call.rowsRead E).getD k [] ++ zs) := by
  have hread := h.holds_read
  rw [flatten_split _ k] at hread
  exact ⟨_, by simpa only [List.append_assoc] using hread⟩

omit [NeZero n] in
theorem Published.length_before {y : Local × Shared n} {path : Path}
    (h : Published call E y path) (k : Nat) :
    ((lengths (call.rowsSeen E)).take call.headerInts ++
      ((call.rowsRead E).take k).flatten).length =
      call.headerInts + ((call.rowsRead E).take k).flatten.length := by
  rw [List.length_append, List.length_take, length_lengths, length_rowsSeen,
    Nat.min_eq_left h.headerInts_le]

omit [NeZero n] in
/-- No copy of a row goes out of the segment. -/
theorem Published.room_row {y : Local × Shared n} {path : Path} (h : Published call E y path)
    (k : Nat) : ¬(y.2.1.store 0).size < 4 * (call.headerInts +
      ((call.rowsRead E).take k).flatten.length + ((call.rowsRead E).getD k []).length) := by
  have hnext := h.room_read (k + 1)
  rw [flatten_take_succ, List.length_append] at hnext
  rw [h.sized]
  omega

section Peer

variable {p : Fin n} (hp : p ≠ 0)
variable {B : Local × Shared n → Prop} {x : Local × Shared n} {t : List (Instr (Act n) Coll)}
variable {a : Act n} {loc : Local} {w : World n}

abbrev PeerWp (call : Call n) (E : Reads n) (p : Fin n) (xs : List (Instr (Act n) Coll))
    (B : Local × Shared n → Prop) (x : Local × Shared n) : Prop :=
  wp call.protocol (call.reference E) (PeerReady call E p) (fun _ _ => True) p xs B x

theorem peerWp_dead {e : Halt Int}
    (h : (call.perform p a x.1 (peerWorld (call.published E).2.1)).1 = .error e)
    (hd : call.dead a = true) (hs : Sees call x.1 (call.published E).2.1 a) :
    PeerWp call E p (.act a :: t) B x := by
  refine ⟨fun _ _ => ⟨by rw [h, hd]; rfl, hs⟩, fun hf => ?_⟩
  simp [reference, failsFor, fails, hd] at hf

/-- What `p` has after a collective of the replay. -/
abbrev gets (call : Call n) (E : Reads n) (p : Fin n) (c : Coll) (loc : Local) : Local :=
  call.protocol.recv p c (fun q => some ((call.reference E).msg q c)) loc

theorem peerWp_coll {c : Coll} (h : gets call E p c x.1 = loc)
    (ht : PeerWp call E p t B (loc, x.2)) : PeerWp call E p (.coll c :: t) B x := by
  subst h
  exact ⟨trivial, ht⟩

theorem gets_smBarrier (loc : Local) : gets call E p .smBarrier loc = loc := by
  simp [gets, protocol]

include hp

theorem peerWp_act (h : call.perform p a x.1 (peerWorld (call.published E).2.1) = (.ok loc, w))
    (hd : call.dead a = false) (hs : Sees call x.1 (call.published E).2.1 a)
    (ht : PeerWp call E p t B (loc, x.2)) : PeerWp call E p (.act a :: t) B x := by
  refine ⟨fun _ _ => ⟨by rw [h, hd]; rfl, hs⟩, fun _ => ?_⟩
  have : (call.reference E).act p a x = (loc, x.2) := by simp [reference, hp, peerAct, h]
  rw [this]
  exact ht

theorem gets_plen (loc : Local) : gets call E p (.xchg .plen) loc =
    { loc with xchg := { loc.xchg with plen := match call.segName with
      | .ok path => path.bytes.length + 1
      | .error e => -e.code } } := by
  simp [gets, protocol, reference, hp, UniqPath.recv]

theorem gets_result (loc : Local) : gets call E p (.xchg .result) loc =
    { loc with xchg := { loc.xchg with result := (call.published E).1.xchg.result } } := by
  simp [gets, protocol, reference, hp, UniqPath.recv]

theorem gets_smSegLen (loc : Local) : gets call E p .smSegLen loc =
    { loc with smSegLen := (call.published E).1.smSegLen } := by
  simp [gets, protocol, reference, hp]

/-- Up to the data being published. -/
theorem peerWp_await
    (h : ∀ x, x.1.xchg.result = (call.published E).1.xchg.result →
      x.1.smSegLen = (call.published E).1.smSegLen →
      x.1.nranksInRes = List.replicate call.nres 0 →
      x.1.rankIdsInRes = List.replicate call.nres [] → PeerWp call E p t B x) :
    PeerWp call E p (awaitScript ++ t) B (.fresh, .empty, []) := by
  by_cases hmax : call.maxQids ≤ 0
  · exact peerWp_dead (by simp only [perform, if_pos hmax]; rfl) (by simp [dead, hmax]) trivial
  refine peerWp_act hp (by simp only [perform, if_neg hmax]; rfl) (by simp [dead, hmax]) trivial <|
    peerWp_coll (gets_smBarrier _) ?_
  cases hnobjs : call.nobjs with
  | error e =>
    exact peerWp_dead (by simp only [perform, hnobjs]; rfl) (by simp [dead, nres, hnobjs]) trivial
  | ok k =>
    cases k with
    | zero =>
      exact peerWp_dead (by simp only [perform, hnobjs]; rfl) (by simp [dead, nres, hnobjs]) trivial
    | succ k =>
      refine peerWp_act hp (by simp only [perform, hnobjs]; rfl) (by simp [dead, nres, hnobjs])
        trivial <| peerWp_coll (gets_plen hp _) ?_
      cases hname : call.segName with
      | error e =>
        have he := e.code_pos
        refine peerWp_dead (e := .code e.code) ?_
          (by simp [dead, hname, Except.isOk, Except.toBool]) trivial
        simp [perform, UniqPath.execPeer, hp, he]
      | ok path =>
        have hplen : ¬ (path.bytes.length : Int) + 1 < 0 := by omega
        refine peerWp_act hp (by
          simp only [perform, UniqPath.execPeer, if_neg hp, hname, if_neg hplen]; rfl)
          (by simp [dead, hname, Except.isOk, Except.toBool]) trivial ?_
        refine peerWp_act hp (by simp only [perform, UniqPath.execPeer, if_neg hp]; rfl) rfl
          trivial <| peerWp_coll (gets_result hp _) ?_
        refine peerWp_act hp rfl rfl trivial <| peerWp_act hp rfl rfl trivial <|
          peerWp_act hp rfl rfl trivial <| peerWp_coll (gets_smSegLen hp _) ?_
        exact h _ rfl rfl rfl rfl

/-- The first `k` rows are read. -/
structure RowsTaken (call : Call n) (E : Reads n) (k : Nat) (x : Local × Shared n) : Prop where
  base : x.1.smseg.segBasep = some 0
  counts : x.1.nranksInRes = lengths (call.rowsRead E)
  tabp : x.1.tabp = call.headerInts + ((call.rowsRead E).take k).flatten.length
  rows : x.1.rankIdsInRes = (call.rowsRead E).take k ++ List.replicate (call.nres - k) []

omit hp in
theorem RowsTaken.ready {path : Path} {k : Nat} (hpub : Published call E (call.published E) path)
    (h : RowsTaken call E k x) : PeerReady call E p (.readRow k) x := by
  have hcount := getD_lengths (call.rowsRead E)
  have hin := hpub.room_row k
  refine fun _ _ => ⟨?_, 0, h.base, fun j hj => ?_⟩
  · simp only [perform, withBase, h.base, h.counts, h.tabp, hcount, peerWorld, if_neg hin]
    rfl
  · rw [h.counts, hcount] at hj
    rw [h.tabp, ← hpub.length_before k]
    obtain ⟨zs, hholds⟩ := hpub.holds_row k
    exact hholds.written hj

theorem RowsTaken.step {path : Path} {k : Nat}
    (hpub : Published call E (call.published E) path) (hk : k < call.nres)
    (h : RowsTaken call E k x) :
    RowsTaken call E (k + 1) ((call.reference E).act p (.readRow k) x) := by
  have hcount := getD_lengths (call.rowsRead E)
  have hlen : (call.rowsRead E).length = call.nres := by
    rw [rowsRead, length_cut, length_rowsSeen]
  have hin := hpub.room_row k
  obtain ⟨zs, hholds⟩ := hpub.holds_row k
  have hread := hholds.read
  rw [hpub.length_before k] at hread
  obtain ⟨loc, sh⟩ := x
  obtain ⟨hb, hc, ht, hr⟩ := h
  simp only at hb hc ht hr
  have hact : (call.reference E).act p (.readRow k) (loc, sh) =
      ({ loc with
        rankIdsInRes := loc.rankIdsInRes.set k ((call.rowsRead E).getD k [])
        tabp := loc.tabp + ((call.rowsRead E).getD k []).length }, sh) := by
    simp only [reference, if_neg hp, peerAct, perform, withBase, hb, hc, ht, hcount, peerWorld,
      hread, if_neg hin]
  rw [hact]
  refine ⟨hb, hc, ?_, ?_⟩
  · simp only [flatten_take_succ, ht, List.length_append]
    omega
  · simp only [hr, ← hlen]
    exact set_row (by rw [hlen]; exact hk)

/-- The rows are read. -/
theorem peerWp_rows {path : Path} (hpub : Published call E (call.published E) path)
    (hbase : x.1.smseg.segBasep = some 0) (hcounts : x.1.nranksInRes = lengths (call.rowsRead E))
    (htabp : x.1.tabp = call.headerInts) (hrows : x.1.rankIdsInRes = List.replicate call.nres [])
    (h : ∀ y, y.1.nranksInRes = lengths (call.rowsRead E) →
      y.1.rankIdsInRes = call.rowsRead E → PeerWp call E p t B y) :
    PeerWp call E p ((call.perRes .readRow).map .act ++ t) B x := by
  have hnone : RowsTaken call E 0 x :=
    ⟨hbase, hcounts, by simpa using htabp, by simpa using hrows⟩
  refine wp_append.mpr (wp_mono (wp_range hnone (fun _ _ _ hI => hI.ready hpub)
    fun _ _ hk hI _ => hI.step hp hpub hk) fun y hy => h y hy.counts ?_)
  have hlen : (call.rowsRead E).length = call.nres := by
    rw [rowsRead, length_cut, length_rowsSeen]
  rw [hy.rows, ← hlen]
  simp

/-- The segment is attached to, and the table read. -/
theorem peerWp_read {path : Path} (hpub : Published call E (call.published E) path)
    (hresult : x.1.xchg.result = (call.published E).1.xchg.result)
    (hlen : x.1.smSegLen = (call.published E).1.smSegLen)
    (hcounts : x.1.nranksInRes = List.replicate call.nres 0)
    (hrows : x.1.rankIdsInRes = List.replicate call.nres [])
    (h : ∀ y, y.1.nranksInRes = lengths (call.rowsRead E) →
      y.1.rankIdsInRes = call.rowsRead E → PeerWp call E p t B y) :
    PeerWp call E p ([Instr.coll Coll.smBarrier] ++ attachScript.map (Instr.act ∘ Act.sm) ++
      [Instr.coll Coll.smBarrier, Instr.act Act.readHeader] ++
      (call.perRes .readRow).map Instr.act ++ t) B x := by
  have hname : x.1.xchg.result = some path := hresult.trans hpub.result
  have hsize : toSize x.1.smSegLen = call.size (call.rowsSeen E) := by rw [hlen, hpub.seglen]
  have hheader : ((lengths (call.rowsSeen E)).take call.headerInts).length = call.headerInts := by
    rw [List.length_take, length_lengths, length_rowsSeen, Nat.min_eq_left hpub.headerInts_le]
  have hholds : Holds (call.published E).2.1 ([] ++
      (lengths (call.rowsSeen E)).take call.headerInts ++ (call.rowsSeen E).flatten) := hpub.holds
  refine peerWp_coll (gets_smBarrier _) <| peerWp_act hp
    (perform_sm_ok (by simp) (exec_cachePath hname)) rfl trivial ?_
  refine peerWp_act hp (perform_sm_ok (by simp) (exec_openRdwr rfl hpub.linked)) rfl
    ⟨path, rfl, hpub.linked, ?_⟩ ?_
  · rw [hpub.sized]
    simpa using hsize.symm
  refine peerWp_act hp (perform_sm_ok (by simp) (exec_mmap ?_)) rfl trivial <|
    peerWp_coll (gets_smBarrier _) ?_
  · simpa only [hsize] using hpub.nonempty
  refine peerWp_act hp (by
      simp only [perform, withBase, peerWorld, hpub.sized, if_neg (not_lt.mpr hpub.header)]
      rfl) rfl ⟨0, rfl, fun j hj => ?_⟩ <| peerWp_rows hp hpub rfl ?_ rfl ?_ h
  · rw [← hheader] at hj
    simpa using hholds.written hj
  · have hread := hholds.read
    rw [hheader] at hread
    simp only [List.length_nil] at hread
    simp only [hread, hcounts, List.drop_replicate]
    rw [rowsRead, lengths_cut, length_rowsSeen]
  · exact hrows

variable (call E) in
/-- If process 0 publishes its table, the others come to have what the header leaves of it;
and whatever happens their steps are ready. -/
theorem peerWp_readScript : PeerWp call E p call.readScript (fun y => Publishes call E →
    y.1.nranksInRes = lengths (call.rowsRead E) ∧ y.1.rankIdsInRes = call.rowsRead E)
    (.fresh, .empty, []) := by
  simp only [readScript, List.append_assoc]
  refine peerWp_await hp fun x hresult hlen hcounts hrows => ?_
  by_cases hpub : Publishes call E
  · obtain ⟨path, hpub'⟩ := published_of (E := E) hpub
    have := peerWp_read hp hpub' hresult hlen hcounts hrows (t := [])
      (B := fun y => Publishes call E → y.1.nranksInRes = lengths (call.rowsRead E) ∧
        y.1.rankIdsInRes = call.rowsRead E)
      fun y h₁ h₂ => fun _ => ⟨h₁, h₂⟩
    simpa only [List.append_assoc, List.append_nil] using this
  · refine wp_mono (wp_of_forall (fun a ha y hne hon => absurd (hon ?_) hpub)
      fun _ _ => trivial) fun y _ h => absurd h hpub
    simp only [attachScript, perRes, List.mem_append, List.mem_cons, List.mem_map, List.mem_range,
      List.not_mem_nil, or_false, reduceCtorEq, false_or, Function.comp, Instr.act.injEq] at ha
    rcases ha with ⟨b, -, rfl⟩ | rfl | ⟨b, ⟨i, -, rfl⟩, rfl⟩
    · trivial
    · trivial
    · trivial

variable (call E) in
theorem peerWp_script : PeerWp call E p call.peerScript (fun _ => True) (.fresh, .empty, []) :=
  wp_append.mpr (wp_mono (peerWp_readScript call E hp) fun _ _ =>
    ⟨fun h => absurd rfl h, fun _ => trivial⟩)

end Peer

end Call

end LibQuo.AutoDistrib
