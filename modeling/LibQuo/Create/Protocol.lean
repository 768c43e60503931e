import LibQuo.Lib.Publish
import LibQuo.UniqPath
import Mathlib.Data.Fintype.Basic

/-!
`QUO_create_with_flags`, once the processes of a node have their communicator.
`sm_setup` of `quo-mpi.c` shares the segment of the node barrier, and
`quo_hwloc_init` shares the topology that process 0 has loaded. Both exchange a
path first; the first one synchronises with `MPI_Barrier`, the second one with a
broadcast and the barrier that the first one has set up.
-/

namespace LibQuo

namespace Create
open CMem Sm Spmd

/-- The two segments, by the name their path is made of. -/
inductive Module
  | bseg
  | htopo
  deriving DecidableEq, Repr

/-- `sizeof(quo_shmem_barrier_segment_t)`. -/
def barrierSegmentSize : Nat := 32

inductive Act
  | xchg (m : Module) (a : UniqPath.Act)
  | sm (m : Module) (a : Sm.Act)
  | ptmcInit
  | topologyInit
  | topoLoad
  | exportXmlbuffer
  | copyXml
  | setXmlbuffer
  | initCachedAttrs
  deriving DecidableEq

inductive Coll
  | xchg (m : Module) (c : UniqPath.Coll)
  | mpiBarrier
  | topoXmlLen
  | smBarrier
  deriving DecidableEq

/-- The pthread barrier of the node, and its communicator. -/
inductive Chan
  | barrier
  | smpcomm
  deriving DecidableEq

def Act.failsWith : Act → List Rc
  | .xchg _ a => a.failsWith
  | .sm _ a => a.failsWith
  | .ptmcInit => [.errSys]
  | .topologyInit | .topoLoad | .exportXmlbuffer | .setXmlbuffer => [.errTopo]
  | .initCachedAttrs => [.errOor, .errTopo]
  | .copyXml => []

/-- How the process ends that takes the error path behind a step. `quo_hwloc_init`
destroys the topology there, which is a fault as long as `hwloc->topo` is null. -/
def Act.bail : Act → Halt Int → Halt Int
  | .xchg .htopo _, _ | .topologyInit, _ => .fault .outOfBounds
  | _, e => e

/-- The handle of the topology, once it is there. -/
inductive Topo
  | initialized
  | loaded
  deriving DecidableEq, Repr

/-- A text with its terminating zero; its length is an `int`. -/
structure Xml where
  bytes : List UInt8
  short : (bytes.length : Int) < intMax

def Xml.len (xml : Xml) : Nat := xml.bytes.length + 1

/-- The variables of the two functions. Of a topology text, where it is and how long. -/
structure Local where
  bsegPath : UniqPath.Local
  barrierSm : Handle
  htopoPath : UniqPath.Local
  htopoSm : Handle
  topo : Option Topo
  topoXml : Option Xml
  topoXmlLen : Int
  xmlbuffer : Option Nat
  cached : Bool

def Local.fresh : Local := ⟨.fresh, .fresh, .fresh, .fresh, none, none, 0, none, false⟩

/-- The variables of a path exchange. -/
def Local.path (loc : Local) : Module → UniqPath.Local
  | .bseg => loc.bsegPath
  | .htopo => loc.htopoPath

def Local.setPath (loc : Local) (m : Module) (x : UniqPath.Local) : Local :=
  match m with
  | .bseg => { loc with bsegPath := x }
  | .htopo => { loc with htopoPath := x }

def Local.segment (loc : Local) : Module → Handle
  | .bseg => loc.barrierSm
  | .htopo => loc.htopoSm

def Local.setSegment (loc : Local) (m : Module) (h : Handle) : Local :=
  match m with
  | .bseg => { loc with barrierSm := h }
  | .htopo => { loc with htopoSm := h }

/-- The size a segment is made or attached with. -/
def Local.segSize (loc : Local) : Module → Nat
  | .bseg => barrierSegmentSize
  | .htopo => loc.topoXmlLen.toNat

/-- One call by all processes of a node of `n`: the paths process 0 makes up, the text
its topology is exported to, the paths that `unlink` cannot take away, and which local
steps end in which error. -/
structure Call (n : Nat) where
  segName : Module → Except Failure Path
  xml : Xml
  keeps : Path → Bool
  fault : Fin n → Act → Option Rc
  fault_mem : ∀ p a e, fault p a = some e → e ∈ a.failsWith

namespace Call

variable {n : Nat}

/-- Process 0, up to the barrier being there. -/
def barrierScript : List (Instr Act Coll) :=
  UniqPath.rootScript.map (lift (.xchg .bseg) (.xchg .bseg)) ++
  createScript.map (.act ∘ .sm .bseg) ++ [.act .ptmcInit]

/-- Process 0, up to the topology being there. -/
def topologyScript : List (Instr Act Coll) :=
  barrierScript ++ [.coll .mpiBarrier, .coll .mpiBarrier, .act (.sm .bseg .unlink)] ++
  UniqPath.rootScript.map (lift (.xchg .htopo) (.xchg .htopo)) ++
  [.act .topologyInit, .act .topoLoad, .act .exportXmlbuffer, .coll .topoXmlLen] ++
  createScript.map (.act ∘ .sm .htopo) ++ [.act .copyXml]

def rootScript : List (Instr Act Coll) :=
  topologyScript ++ [.coll .smBarrier, .coll .smBarrier, .act (.sm .htopo .unlink),
    .act .initCachedAttrs]

def peerScript : List (Instr Act Coll) :=
  UniqPath.peerScript.map (lift (.xchg .bseg) (.xchg .bseg)) ++ [.coll .mpiBarrier] ++
  attachScript.map (.act ∘ .sm .bseg) ++ [.coll .mpiBarrier] ++
  UniqPath.peerScript.map (lift (.xchg .htopo) (.xchg .htopo)) ++
  [.act .topologyInit, .coll .topoXmlLen, .coll .smBarrier] ++
  attachScript.map (.act ∘ .sm .htopo) ++
  [.coll .smBarrier, .act .setXmlbuffer, .act .topoLoad, .act .initCachedAttrs]

variable (call : Call n) [NeZero n]

/-- A local step of process `p` in which no call fails. -/
def perform (p : Fin n) : Act → Local → Files → Except (Halt Int) Local × Files
  | .xchg m a, loc, fs =>
      (((if p = 0 then UniqPath.execRoot (call.segName m) a (loc.path m)
        else UniqPath.execPeer a (loc.path m)).mapError (Act.xchg m a).bail).map (loc.setPath m),
        fs)
  | .sm m a, loc, fs =>
      let r := Sm.exec call.keeps (loc.path m).result (loc.segSize m) a (loc.segment m) fs
      (r.1.map (loc.setSegment m), r.2)
  | .ptmcInit, loc, fs => (.ok loc, fs)
  | .topologyInit, loc, fs => (.ok { loc with topo := some .initialized }, fs)
  | .topoLoad, loc, fs =>
      match loc.topo with
      | none => (.error (.fault .outOfBounds), fs)
      | some _ => (.ok { loc with topo := some .loaded }, fs)
  | .exportXmlbuffer, loc, fs =>
      (.ok { loc with topoXml := some call.xml, topoXmlLen := call.xml.len }, fs)
  | .copyXml, loc, fs =>
      match loc.htopoSm.segBasep, loc.topoXml with
      | some i, some xml =>
          (.ok { loc with topoXml := none },
            fs.write i 0 (xml.bytes.map (fun b => (b.toNat : Int)) ++ [0]))
      | _, _ => (.error (.fault .outOfBounds), fs)
  | .setXmlbuffer, loc, fs => (.ok { loc with xmlbuffer := loc.htopoSm.segBasep }, fs)
  | .initCachedAttrs, loc, fs => (.ok { loc with cached := true }, fs)

def recvLen (m : Option Msg) (loc : Local) : Local :=
  match m with
  | some (.int v) => { loc with topoXmlLen := v }
  | _ => loc

def recvUniq (m : Module) (c : UniqPath.Coll) (v : Option Msg) (loc : Local) : Local :=
  match v with
  | some v => loc.setPath m (UniqPath.recv c v (loc.path m))
  | none => loc

def protocol : Protocol n Act Coll Chan Local Files Msg (Halt Int) where
  script p := if p = 0 then rootScript else peerScript
  chan
    | .smBarrier => .barrier
    | .mpiBarrier | .topoXmlLen | .xchg _ _ => .smpcomm
  root
    | .smBarrier | .mpiBarrier => none
    | .topoXmlLen | .xchg _ _ => some 0
  exec p a loc fs :=
    match call.fault p a with
    | some e => (.error (a.bail (.code e.code)), fs)
    | none => call.perform p a loc fs
  send p c loc :=
    if p = 0 then
      match c with
      | .xchg m c => UniqPath.send c (loc.path m)
      | .topoXmlLen => .int loc.topoXmlLen
      | .mpiBarrier | .smBarrier => .nothing
    else .nothing
  recv p c f loc :=
    if p = 0 then loc
    else match c with
      | .xchg m c => recvUniq m c (f 0) loc
      | .topoXmlLen => recvLen (f 0) loc
      | .mpiBarrier | .smBarrier => loc
  idle _ _ _ := False
  loc₀ _ := .fresh
  world₀ := .empty

theorem script_root : call.protocol.script 0 = rootScript := by simp [protocol]

theorem script_peer {p : Fin n} (hp : p ≠ 0) : call.protocol.script p = peerScript := by
  simp [protocol, hp]

def sequence : List Coll :=
  [.xchg .bseg .plen, .xchg .bseg .result, .mpiBarrier, .mpiBarrier, .xchg .htopo .plen,
    .xchg .htopo .result, .topoXmlLen, .smBarrier, .smBarrier]

/-- All processes enter the same collectives in the same order. -/
theorem colls_script (p : Fin n) : colls (call.protocol.script p) = sequence := by
  by_cases hp : p = 0
  · subst hp
    simp [script_root, rootScript, topologyScript, barrierScript, UniqPath.rootScript, createScript,
      colls, lift, sequence]
  · simp [script_peer call hp, peerScript, UniqPath.peerScript, attachScript, colls, lift, sequence]

end Call

end Create

end LibQuo
