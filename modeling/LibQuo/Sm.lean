import LibQuo.Codes
import LibQuo.Lib.CMem
import LibQuo.Lib.Publish
import Mathlib.Logic.Function.Basic

/-!
`quo-sm.c`: segments of memory that processes share by the path of their backing
store. `quo_sm_segment_create` and `quo_sm_segment_attach` are taken apart into
their system calls.
-/

namespace LibQuo.Sm
open CMem Spmd

/-- A path that `asprintf` has built: its length is an `int`, and so is the size
of the string. -/
structure Path where
  bytes : List UInt8
  short : (bytes.length : Int) < intMax
  deriving DecidableEq

/-- What is behind a path: the size of the store, and what was written to its
`int`s. -/
structure Store where
  size : Nat
  cell : Nat → Option Int

structure Files where
  dir : Path → Option Nat
  store : Nat → Store
  next : Nat

namespace Files

def empty : Files := ⟨fun _ => none, fun _ => ⟨0, fun _ => none⟩, 0⟩

/-- `open` with `O_CREAT`. -/
def create (fs : Files) (path : Path) : Nat × Files :=
  match fs.dir path with
  | some i => (i, fs)
  | none => (fs.next,
      { dir := Function.update fs.dir path (some fs.next)
        store := Function.update fs.store fs.next ⟨0, fun _ => none⟩
        next := fs.next + 1 })

def truncate (fs : Files) (i size : Nat) : Files :=
  { fs with store := Function.update fs.store i { fs.store i with size := size } }

def unlink (fs : Files) (path : Path) : Files :=
  { fs with dir := Function.update fs.dir path none }

/-- `memmove` of `xs` to the `k`-th `int` of a mapped store. -/
def write (fs : Files) (i k : Nat) (xs : List Int) : Files :=
  { fs with store := Function.update fs.store i { fs.store i with
      cell := fun j => if k ≤ j ∧ j < k + xs.length then xs[j - k]? else (fs.store i).cell j } }

/-- `memmove` of `m` `int`s from the `k`-th on; what nobody wrote is zero. -/
def read (fs : Files) (i k m : Nat) : List Int :=
  (List.range m).map fun j => ((fs.store i).cell (k + j)).getD 0

end Files

/-- `quo_sm_t`, and the descriptor that create and attach hold meanwhile. -/
structure Handle where
  path : Option Path
  segSize : Nat
  segBasep : Option Nat
  fd : Option Nat

def Handle.fresh : Handle := ⟨none, 0, none, none⟩

def Handle.mapped (path : Path) (size i : Nat) : Handle := ⟨some path, size, some i, none⟩

/-- What create, attach and unlink are made of. -/
inductive Act
  | cachePath
  | openCreate
  | ftruncate
  | mmap
  | openRdwr
  | unlink
  deriving DecidableEq, Repr

/-- `quo_sm_segment_create`. -/
def createScript : List Act := [.cachePath, .openCreate, .ftruncate, .mmap]

/-- `quo_sm_segment_attach`. -/
def attachScript : List Act := [.cachePath, .openRdwr, .mmap]

def Act.failsWith : Act → List Rc
  | .cachePath => [.errOor]
  | .openCreate | .ftruncate | .mmap | .openRdwr => [.errSys]
  | .unlink => []

/-- One step on a segment for `segPath` and `segSize`, when nothing but the state
of the files makes it fail: `open` without `O_CREAT` needs the path, and `mmap`
a length; `ftruncate` is assumed to take every size. The paths `keeps` are those that
`unlink` cannot take away, of which `quo_sm_unlink` only warns. A call on a descriptor
or a path that is not there is a fault. -/
def exec (keeps : Path → Bool) (segPath : Option Path) (segSize : Nat) :
    Act → Handle → Files → Except (Halt Int) Handle × Files
  | .cachePath, h, fs =>
      match segPath with
      | none => (.error (.code Rc.errInvldArg.code), fs)
      | some path => (.ok { h with path := some path, segSize := segSize }, fs)
  | .openCreate, h, fs =>
      match h.path with
      | none => (.error (.fault .outOfBounds), fs)
      | some path => (.ok { h with fd := some (fs.create path).1 }, (fs.create path).2)
  | .ftruncate, h, fs =>
      match h.fd with
      | none => (.error (.fault .outOfBounds), fs)
      | some i => (.ok h, fs.truncate i h.segSize)
  | .mmap, h, fs =>
      if h.segSize = 0 then (.error (.code Rc.errSys.code), fs)
      else (.ok { h with segBasep := h.fd, fd := none }, fs)
  | .openRdwr, h, fs =>
      match h.path with
      | none => (.error (.fault .outOfBounds), fs)
      | some path =>
          match fs.dir path with
          | none => (.error (.code Rc.errSys.code), fs)
          | some i => (.ok { h with fd := some i }, fs)
  | .unlink, h, fs =>
      match h.path with
      | none => (.error (.fault .outOfBounds), fs)
      | some path => (.ok h, if keeps path then fs else fs.unlink path)

variable {keeps : Path → Bool} {segPath : Option Path} {segSize : Nat} {a : Act} {h : Handle}
variable {fs fs' : Files}

theorem exec_cachePath {path : Path} (hpath : segPath = some path) :
    exec keeps segPath segSize .cachePath h fs =
      (.ok { h with path := some path, segSize := segSize }, fs) := by
  simp only [exec, hpath]

theorem exec_openCreate {path : Path} (hpath : h.path = some path) :
    exec keeps segPath segSize .openCreate h fs =
      (.ok { h with fd := some (fs.create path).1 }, (fs.create path).2) := by
  simp only [exec, hpath]

theorem exec_ftruncate {i : Nat} (hfd : h.fd = some i) :
    exec keeps segPath segSize .ftruncate h fs = (.ok h, fs.truncate i h.segSize) := by
  simp only [exec, hfd]

theorem exec_mmap (hsize : h.segSize ≠ 0) :
    exec keeps segPath segSize .mmap h fs = (.ok { h with segBasep := h.fd, fd := none }, fs) := by
  simp only [exec, if_neg hsize]

theorem exec_openRdwr {path : Path} {i : Nat} (hpath : h.path = some path)
    (hlink : fs.dir path = some i) :
    exec keeps segPath segSize .openRdwr h fs = (.ok { h with fd := some i }, fs) := by
  simp only [exec, hpath, hlink]

theorem exec_unlink_handle {h' : Handle}
    (hx : exec keeps segPath segSize .unlink h fs = (.ok h', fs')) : h' = h := by
  simp only [exec] at hx
  split at hx
  · simp at hx
  · exact (Except.ok.inj (Prod.mk.inj hx).1).symm

/-- A step that fails leaves the files as they are. -/
theorem exec_error {e : Halt Int} (hx : exec keeps segPath segSize a h fs = (.error e, fs')) :
    fs' = fs := by
  cases a <;> simp only [exec] at hx <;> split at hx <;> try split at hx
  all_goals simp at hx
  all_goals exact hx.2.symm

/-- Attaching does not change the files. -/
theorem exec_attach (ha : a ∈ attachScript) : (exec keeps segPath segSize a h fs).2 = fs := by
  simp only [attachScript, List.mem_cons, List.not_mem_nil, or_false] at ha
  rcases ha with rfl | rfl | rfl
  · cases segPath <;> rfl
  · simp only [exec]
    split
    · rfl
    · split <;> rfl
  · simp only [exec]
    split <;> rfl

/-- Only `open` looks at the files to attach. -/
theorem exec_blind (ha : a ∈ attachScript) (hne : a ≠ .openRdwr) :
    (exec keeps segPath segSize a h fs).1 = (exec keeps segPath segSize a h fs').1 := by
  simp only [attachScript, List.mem_cons, List.not_mem_nil, or_false] at ha
  rcases ha with rfl | rfl | rfl
  · cases segPath <;> rfl
  · exact absurd rfl hne
  · by_cases hz : h.segSize = 0
    · simp [exec, hz]
    · simp [exec, hz]

namespace Files

@[simp] theorem create_empty (path : Path) :
    empty.create path = (0, ⟨Function.update empty.dir path (some 0),
      Function.update empty.store 0 ⟨0, fun _ => none⟩, 1⟩) := rfl

/-- Writing on a row extends what is known of the cells. -/
theorem cell_write_self (fs : Files) (i k : Nat) (xs : List Int) {j : Nat} (hj : j < xs.length) :
    ((fs.write i k xs).store i).cell (k + j) = xs[j]? := by
  simp [write, hj]

theorem cell_write_lt (fs : Files) (i k : Nat) (xs : List Int) {j : Nat} (hj : j < k) :
    ((fs.write i k xs).store i).cell j = (fs.store i).cell j := by
  simp [write, Nat.not_le.mpr hj]

@[simp] theorem dir_write (fs : Files) (i k : Nat) (xs : List Int) :
    (fs.write i k xs).dir = fs.dir := rfl

@[simp] theorem dir_truncate (fs : Files) (i size : Nat) : (fs.truncate i size).dir = fs.dir := rfl

@[simp] theorem store_unlink (fs : Files) (path : Path) : (fs.unlink path).store = fs.store := rfl

@[simp] theorem size_write (fs : Files) (i k : Nat) (xs : List Int) (j : Nat) :
    ((fs.write i k xs).store j).size = (fs.store j).size := by
  by_cases h : j = i
  · subst h
    simp [write]
  · simp [write, h]

/-- A part of the store that holds `xs` is read back as `xs`. -/
theorem read_eq (fs : Files) (i k : Nat) (xs : List Int)
    (h : ∀ j, j < xs.length → (fs.store i).cell (k + j) = xs[j]?) :
    fs.read i k xs.length = xs := by
  apply List.ext_getElem?
  intro j
  by_cases hj : j < xs.length
  · simp [read, hj, h j hj]
  · simp [read, hj]

end Files

/-! ## As a part of a larger script -/

variable {n : Nat} {Act' Coll' Chan Loc Val : Type}
variable {P : Protocol n Act' Coll' Chan Loc Files Val (Halt Int)}

/-- A larger protocol with a segment: its steps `f` are those on the segment, on the
part `get` of the variables; the segment is empty if `hollow`. -/
structure Within (U : Publication P) (f : Act → Act') (hollow : Bool) where
  keeps : Path → Bool
  get : Loc → Handle
  set : Handle → Loc → Loc
  path : Loc → Option Path
  size : Loc → Nat
  get_set : ∀ h loc, get (set h loc) = h
  set_set : ∀ h h' loc, set h (set h' loc) = set h loc
  path_set : ∀ h loc, path (set h loc) = path loc
  size_set : ∀ h loc, size (set h loc) = size loc
  perform : ∀ p a loc fs, U.perform p (f a) loc fs =
    (((exec keeps (path loc) (size loc) a (get loc) fs).1.map fun h => set h loc),
      (exec keeps (path loc) (size loc) a (get loc) fs).2)
  dead : ∀ p a, U.dead p (f a) = (a == .mmap && hollow)

namespace Within

variable {U : Publication P} {f : Act → Act'} {hollow : Bool} (E : Within U f hollow)
variable {t xs : List (Instr Act' Coll')} {B : Loc × Files → Prop} {loc : Loc} {p : Fin n}
variable {fs : Files} {path : Path}

/-- The writer makes the segment. -/
theorem wp_create (hpath : E.path loc = some path) (hsize : E.size loc = 0 ↔ hollow = true)
    (h : hollow = false → U.Wp U.writer t B
      (E.set (.mapped path (E.size loc) (fs.create path).1) loc,
        (fs.create path).2.truncate (fs.create path).1 (E.size loc))) :
    U.Wp U.writer ((createScript.map f).map .act ++ t) B (loc, fs) := by
  have hcache : U.dead U.writer (f .cachePath) = false := by simp [E.dead]
  have hopen : U.dead U.writer (f .openCreate) = false := by simp [E.dead]
  have htrunc : U.dead U.writer (f .ftruncate) = false := by simp [E.dead]
  have hmmap : U.dead U.writer (f .mmap) = hollow := by simp [E.dead]
  let h₁ : Handle := { E.get loc with path := some path, segSize := E.size loc }
  let h₂ : Handle := { h₁ with fd := some (fs.create path).1 }
  refine Publication.wp_writer (y := E.set h₁ loc) (w := fs) ?_ hcache ?_
  · simp [E.perform, exec, hpath, Except.map, h₁]
  refine Publication.wp_writer (y := E.set h₂ loc) (w := (fs.create path).2) ?_ hopen ?_
  · simp [E.perform, exec, E.get_set, E.set_set, Except.map, h₁, h₂]
  refine Publication.wp_writer (y := E.set h₂ loc)
    (w := (fs.create path).2.truncate (fs.create path).1 (E.size loc)) ?_ htrunc ?_
  · simp [E.perform, exec, E.get_set, E.set_set, Except.map, h₁, h₂]
  cases hollow with
  | true =>
    refine Publication.wp_dead (e := .code Rc.errSys.code) (fun w => ?_) hmmap
    simp [E.perform, exec, E.get_set, Except.map, h₁, h₂, hsize.mpr rfl]
  | false =>
    have hpos : E.size loc ≠ 0 := fun h => by simpa using hsize.mp h
    refine Publication.wp_writer ?_ hmmap (h rfl)
    simp [E.perform, exec, E.get_set, E.set_set, Except.map, h₁, h₂, hpos, Handle.mapped]

/-- Another process attaches to the segment, in the window behind `xs`. -/
theorem wp_attach (hp : p ≠ U.writer) (hb : U.behind (f .openRdwr) = some xs)
    (hpath : E.path loc = some path) (hsize : E.size loc = 0 ↔ hollow = true) {i : Nat}
    (hlink : (∀ b, .act b ∈ xs → U.fails U.writer b = false) →
      (U.written xs).2.dir path = some i)
    (h : hollow = false → U.Wp p t B (E.set (.mapped path (E.size loc) i) loc, fs)) :
    U.Wp p ((attachScript.map f).map .act ++ t) B (loc, fs) := by
  have hcache : U.dead p (f .cachePath) = false := by simp [E.dead]
  have hopen : U.dead p (f .openRdwr) = false := by simp [E.dead]
  have hmmap : U.dead p (f .mmap) = hollow := by simp [E.dead]
  let h₁ : Handle := { E.get loc with path := some path, segSize := E.size loc }
  refine Publication.wp_local (y := E.set h₁ loc) (fun w => ?_) hcache ?_
  · simp [E.perform, exec, hpath, Except.map, h₁]
  refine Publication.wp_window hp hb fun hsucc => ?_
  have hi := hlink hsucc
  let h₂ : Handle := { h₁ with fd := some i }
  refine ⟨E.set h₂ loc, ?_, hopen, ?_⟩
  · simp [E.perform, exec, E.get_set, E.set_set, hi, Except.map, h₁, h₂]
  cases hollow with
  | true =>
    refine Publication.wp_dead (e := .code Rc.errSys.code) (fun w => ?_) hmmap
    simp [E.perform, exec, E.get_set, Except.map, h₁, h₂, hsize.mpr rfl]
  | false =>
    have hpos : E.size loc ≠ 0 := fun h => by simpa using hsize.mp h
    refine Publication.wp_local (fun w => ?_) hmmap (h rfl)
    simp [E.perform, exec, E.get_set, E.set_set, Except.map, h₁, h₂, hpos, Handle.mapped]

end Within

end LibQuo.Sm
