import LibQuo.Lib.Publish
import LibQuo.Sm

/-!
`quo_mpi_xchange_uniq_path`: node rank 0 makes up a path and broadcasts its
length, then the path. A negative length is a code: the name could not be made.
-/

namespace LibQuo
open CMem Sm Spmd

inductive Msg
  | nothing
  | int (v : Int)
  | path (p : Option Path)
  deriving DecidableEq

namespace UniqPath

inductive Act
  | getSegmentName
  | checkPlen
  | callocResult
  deriving DecidableEq, Repr

inductive Coll
  | plen
  | result
  deriving DecidableEq, Repr

structure Local where
  rc : Int
  plen : Int
  result : Option Path

def Local.fresh : Local := ⟨0, 0, none⟩

/-- The branch of node rank 0. -/
def rootScript : List (Instr Act Coll) :=
  [.act .getSegmentName, .coll .plen, .act .checkPlen, .coll .result]

/-- The branch of the others. -/
def peerScript : List (Instr Act Coll) :=
  [.coll .plen, .act .checkPlen, .act .callocResult, .coll .result]

def Act.failsWith : Act → List Rc
  | .callocResult => [.errOor]
  | .getSegmentName | .checkPlen => []

/-- A step of node rank 0, for what `get_barrier_segment_name` gives. -/
def execRoot (name : Except Failure Path) : Act → Local → Except (Halt Int) Local
  | .getSegmentName, loc =>
      match name with
      | .error e => .ok { loc with rc := e.code, plen := -e.code }
      | .ok path => .ok { loc with rc := 0, plen := path.bytes.length + 1, result := some path }
  | .checkPlen, loc => if loc.rc ≠ 0 then .error (.code loc.rc) else .ok loc
  | .callocResult, loc => .ok loc

def execPeer : Act → Local → Except (Halt Int) Local
  | .getSegmentName, loc => .ok loc
  | .checkPlen, loc => if loc.plen < 0 then .error (.code (-loc.plen)) else .ok loc
  | .callocResult, loc => .ok { loc with result := none }

/-- A step of the exchange ends with a code if it fails. -/
theorem execRoot_error {name : Except Failure Path} {a : Act} {loc : Local} {e : Halt Int}
    (h : execRoot name a loc = .error e) : ∃ c, e = .code c := by
  cases a with
  | checkPlen =>
    simp only [execRoot] at h
    split at h
    · exact ⟨_, (Except.error.inj h).symm⟩
    · simp at h
  | getSegmentName => cases name <;> simp [execRoot] at h
  | callocResult => simp [execRoot] at h

theorem execPeer_error {a : Act} {loc : Local} {e : Halt Int}
    (h : execPeer a loc = .error e) : ∃ c, e = .code c := by
  cases a with
  | checkPlen =>
    simp only [execPeer] at h
    split at h
    · exact ⟨_, (Except.error.inj h).symm⟩
    · simp at h
  | _ => simp [execPeer] at h

def send : Coll → Local → Msg
  | .plen, loc => .int loc.plen
  | .result, loc => .path loc.result

def message (name : Except Failure Path) : Coll → Msg
  | .plen => .int (match name with
      | .ok path => path.bytes.length + 1
      | .error e => -e.code)
  | .result => .path name.toOption

def recv : Coll → Msg → Local → Local
  | .plen, .int v, loc => { loc with plen := v }
  | .result, .path p, loc => { loc with result := p }
  | _, _, loc => loc

/-! ## As a part of a larger script -/

variable {n : Nat} {Act' Coll' Chan Loc World Val : Type}
variable {P : Protocol n Act' Coll' Chan Loc World Val (Halt Int)}

/-- A larger protocol that exchanges a path: its steps `f` and its broadcasts `g` are
those of the exchange, on the part `get` of the variables. It ends with `err e` where the
exchange ends with `e`. -/
structure Within (U : Publication P) (name : Except Failure Path) (f : Act → Act')
    (g : Coll → Coll') where
  get : Loc → Local
  set : Local → Loc → Loc
  err : Halt Int → Halt Int
  get_set : ∀ x loc, get (set x loc) = x
  set_set : ∀ x y loc, set x (set y loc) = set x loc
  root : ∀ a loc w, U.perform U.writer (f a) loc w =
    (((execRoot name a (get loc)).mapError err).map fun x => set x loc, w)
  peer : ∀ p a loc w, p ≠ U.writer → U.perform p (f a) loc w =
    (((execPeer a (get loc)).mapError err).map fun x => set x loc, w)
  dead : ∀ p a, U.dead p (f a) = (a == .checkPlen && !name.isOk)
  send_root : ∀ c loc, send c (get loc) = message name c →
    P.send U.writer (g c) loc = U.msg U.writer (g c)
  send_peer : ∀ p c loc, p ≠ U.writer → P.send p (g c) loc = U.msg p (g c)
  recv_root : ∀ c v loc, P.recv U.writer (g c) v loc = loc
  recv_peer : ∀ p c loc, p ≠ U.writer → P.recv p (g c) (fun q => some (U.msg q (g c))) loc =
    set (recv c (message name c) (get loc)) loc

variable {U : Publication P} {name : Except Failure Path} {f : Act → Act'} {g : Coll → Coll'}
variable {t : List (Instr Act' Coll')} {B : Loc × World → Prop} {loc : Loc} {w : World}

/-- The writer comes out with the path, unless it could not be made. -/
theorem Within.wp_root (E : Within U name f g)
    (h : ∀ path x, name = .ok path → x.result = some path → U.Wp U.writer t B (E.set x loc, w)) :
    U.Wp U.writer (rootScript.map (lift f g) ++ t) B (loc, w) := by
  have hget : U.dead U.writer (f .getSegmentName) = false := by simp [E.dead]
  have hcheck : U.dead U.writer (f .checkPlen) = !name.isOk := by simp [E.dead]
  cases name with
  | error e =>
    let x : Local := { E.get loc with rc := e.code, plen := -e.code }
    refine Publication.wp_local (y := E.set x loc) (fun w => by rw [E.root]; rfl) hget ?_
    refine Publication.wp_coll (E.send_root _ _ ?_) (E.recv_root _ _ _) ?_
    · rw [E.get_set]
      rfl
    · refine Publication.wp_dead (e := E.err (.code e.code)) (fun w => ?_) (by rw [hcheck]; rfl)
      have hpos := e.code_pos
      simp [E.root, E.get_set, execRoot, x, hpos.ne', Except.map, Except.mapError]
  | ok path =>
    let x : Local := { E.get loc with rc := 0, plen := path.bytes.length + 1, result := some path }
    refine Publication.wp_local (y := E.set x loc) (fun w => by rw [E.root]; rfl) hget ?_
    refine Publication.wp_coll (E.send_root _ _ ?_) (E.recv_root _ _ _) ?_
    · rw [E.get_set]
      rfl
    refine Publication.wp_local (y := E.set x loc) (fun w => ?_) (by rw [hcheck]; rfl) ?_
    · rw [E.root, E.get_set]
      simp [execRoot, x, E.set_set, Except.map, Except.mapError]
    refine Publication.wp_coll (E.send_root _ _ ?_) (E.recv_root _ _ _) (h path x rfl rfl)
    rw [E.get_set]
    rfl

/-- The others come out with the same path. -/
theorem Within.wp_peer (E : Within U name f g) {p : Fin n} (hp : p ≠ U.writer)
    (h : ∀ path x, name = .ok path → x.result = some path → U.Wp p t B (E.set x loc, w)) :
    U.Wp p (peerScript.map (lift f g) ++ t) B (loc, w) := by
  have hcheck : U.dead p (f .checkPlen) = !name.isOk := by simp [E.dead]
  have hcalloc : U.dead p (f .callocResult) = false := by simp [E.dead]
  refine Publication.wp_coll (E.send_peer _ _ _ hp) (E.recv_peer _ _ _ hp) ?_
  cases name with
  | error e =>
    refine Publication.wp_dead (e := E.err (.code e.code)) (fun w => ?_) (by rw [hcheck]; rfl)
    have hpos := e.code_pos
    simp [E.peer _ _ _ _ hp, E.get_set, execPeer, recv, message, hpos, Except.map, Except.mapError]
  | ok path =>
    let x : Local := { E.get loc with plen := path.bytes.length + 1 }
    have hplen : ¬ (path.bytes.length : Int) + 1 < 0 := by omega
    refine Publication.wp_local (y := E.set x loc) (fun w => ?_) (by rw [hcheck]; rfl) ?_
    · simp [E.peer _ _ _ _ hp, E.get_set, E.set_set, execPeer, recv, message, hplen, x, Except.map,
        Except.mapError]
    refine Publication.wp_local (y := E.set { x with result := none } loc) (fun w => ?_) hcalloc ?_
    · simp [E.peer _ _ _ _ hp, E.get_set, E.set_set, execPeer, Except.map, Except.mapError]
    refine Publication.wp_coll (E.send_peer _ _ _ hp) (E.recv_peer _ _ _ hp) ?_
    rw [E.get_set, E.set_set]
    exact h path _ rfl rfl

end UniqPath

end LibQuo
