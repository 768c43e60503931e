import LibQuo.Lib.Publish
import LibQuo.UniqPath
import Mathlib.Data.Fintype.Basic

/-!
`quo-xpm.c`: memory that the processes of a node allocate together. They exchange
their local sizes; process 0, the custodian, makes a segment of the total size, the
others attach to it, and each can view the part of any of them.
-/

namespace LibQuo

namespace Xpm
open CMem Sm Spmd

/-! ## Views -/

/-- An address: a store that is mapped, and an offset into the mapping. -/
structure Address where
  store : Option Nat
  offset : UInt64
  deriving DecidableEq

/-- `QUO_xpm_view_t`. -/
structure View where
  base : Address
  extent : UInt64
  deriving DecidableEq

/-- `quo_xpm_t`; of the context, the own id. -/
structure Context where
  qid : Int
  custodian : Bool
  qsmSegment : Handle
  localSize : UInt64
  globalSize : UInt64
  localSizes : List UInt64

/-- `size_t` sum of the local sizes over the values of a loop variable. -/
def sumOver (localSizes : List UInt64) (is : List Int) : Except (Halt Int) UInt64 :=
  is.foldlM (fun res i => do return res + (← loadInt localSizes i)) 0

def rangeSum (xpm : Context) (start fin : Int) : Except (Halt Int) UInt64 :=
  sumOver xpm.localSizes (intRange start (fin + 1))

def baseOffset (xpm : Context) (qid : Int) : Except (Halt Int) Address := do
  return ⟨xpm.qsmSegment.segBasep, ← sumOver xpm.localSizes (intRange 0 qid)⟩

def viewByQidRange (xpm : Context) (qidStart qidEnd : Int) : Except (Halt Int) View := do
  return ⟨← baseOffset xpm qidStart, ← rangeSum xpm qidStart qidEnd⟩

def viewByQid (xpm : Context) (qid : Int) : Except (Halt Int) View := viewByQidRange xpm qid qid

def viewLocal (xpm : Context) : Except (Halt Int) View := viewByQid xpm xpm.qid

/-! ## Allocation -/

inductive Act
  | callocXpm
  | callocLocalSizes
  | smConstruct
  | initXpm
  | callocLsizes
  | copyBack
  | xchg (a : UniqPath.Act)
  | sm (a : Sm.Act)
  deriving DecidableEq

inductive Coll
  | allgather
  | xchg (c : UniqPath.Coll)
  | smBarrier
  deriving DecidableEq

/-- The pthread barrier of the node, and its communicator. -/
inductive Chan
  | barrier
  | nodeComm
  deriving DecidableEq

inductive Packet
  | size (v : Int64)
  | uniq (m : Msg)
  deriving DecidableEq

def Packet.lsize : Option Packet → Int64
  | some (.size v) => v
  | _ => 0

/-- A broadcast of the path exchange. -/
def Packet.recvUniq (c : UniqPath.Coll) : Option Packet → UniqPath.Local → UniqPath.Local
  | some (.uniq m), loc => UniqPath.recv c m loc
  | _, loc => loc

/-- The codes an allocation or a system call may end a step with. -/
def Act.failsWith : Act → List Rc
  | .callocXpm | .callocLocalSizes | .smConstruct | .callocLsizes => [.errOor]
  | .xchg a => a.failsWith
  | .sm a => a.failsWith
  | .initXpm | .copyBack => []

/-- The variables of `QUO_xpm_allocate` and of what it calls. -/
structure Local where
  xpm : Context
  lsize : Int64
  lsizes : List Int64
  xchg : UniqPath.Local

def Local.fresh : Local := ⟨⟨0, false, .fresh, 0, 0, []⟩, 0, [], .fresh⟩

/-- One call by all processes of a node of `n`: the sizes they ask for, the path
process 0 makes up, the paths that `unlink` cannot take away, and which local steps
end in which error. -/
structure Call (n : Nat) where
  localSize : Fin n → UInt64
  segName : Except Failure Path
  keeps : Path → Bool
  fault : Fin n → Act → Option Rc
  fault_mem : ∀ p a e, fault p a = some e → e ∈ a.failsWith

namespace Call

variable {n : Nat}

/-- Up to the sizes being exchanged and summed. -/
def sizesScript : List (Instr Act Coll) :=
  [.act .callocXpm, .act .callocLocalSizes, .act .smConstruct, .act .initXpm,
    .act .callocLsizes, .coll .allgather, .act .copyBack]

/-- Process 0, up to the segment being there. -/
def createdScript : List (Instr Act Coll) :=
  sizesScript ++ UniqPath.rootScript.map (lift .xchg .xchg) ++ createScript.map (.act ∘ .sm)

def rootScript : List (Instr Act Coll) :=
  createdScript ++ [.coll .smBarrier, .coll .smBarrier, .act (.sm .unlink)]

def peerScript : List (Instr Act Coll) :=
  sizesScript ++ UniqPath.peerScript.map (lift .xchg .xchg) ++ [.coll .smBarrier] ++
  attachScript.map (.act ∘ .sm) ++ [.coll .smBarrier]

variable (call : Call n) [NeZero n]

/-- A local step of process `p` that no allocation or system call makes fail, except
`mmap` for a length of zero. -/
def perform (p : Fin n) : Act → Local → Files → Except (Halt Int) Local × Files
  | .callocXpm, loc, fs => (.ok { loc with xpm := Local.fresh.xpm }, fs)
  | .callocLocalSizes, loc, fs =>
      (.ok { loc with xpm := { loc.xpm with localSizes := List.replicate n 0 } }, fs)
  | .smConstruct, loc, fs => (.ok { loc with xpm := { loc.xpm with qsmSegment := .fresh } }, fs)
  | .initXpm, loc, fs =>
      (.ok { loc with
        xpm := { loc.xpm with
          qid := p.val
          custodian := p == 0
          localSize := call.localSize p }
        lsize := (call.localSize p).toInt64 }, fs)
  | .callocLsizes, loc, fs => (.ok { loc with lsizes := List.replicate n 0 }, fs)
  | .copyBack, loc, fs =>
      let xpm := { loc.xpm with localSizes := loc.lsizes.map Int64.toUInt64 }
      ((rangeSum xpm 0 ((n : Int) - 1)).map fun v =>
        { loc with xpm := { xpm with globalSize := v } }, fs)
  | .xchg a, loc, fs =>
      ((if p = 0 then UniqPath.execRoot call.segName a loc.xchg
        else UniqPath.execPeer a loc.xchg).map fun x => { loc with xchg := x }, fs)
  | .sm a, loc, fs =>
      let r := Sm.exec call.keeps loc.xchg.result loc.xpm.globalSize.toNat a loc.xpm.qsmSegment fs
      (r.1.map fun h => { loc with xpm := { loc.xpm with qsmSegment := h } }, r.2)

def protocol : Protocol n Act Coll Chan Local Files Packet (Halt Int) where
  script p := if p = 0 then rootScript else peerScript
  chan
    | .smBarrier => .barrier
    | .allgather | .xchg _ => .nodeComm
  root
    | .smBarrier | .allgather => none
    | .xchg _ => some 0
  exec p a loc fs :=
    match call.fault p a with
    | some e => (.error (.code e.code), fs)
    | none => call.perform p a loc fs
  send p c loc :=
    match c with
    | .allgather => .size loc.lsize
    | .smBarrier => .uniq .nothing
    | .xchg c => .uniq (if p = 0 then UniqPath.send c loc.xchg else .nothing)
  recv p c f loc :=
    match c with
    | .allgather => { loc with lsizes := (List.finRange n).map fun q => Packet.lsize (f q) }
    | .smBarrier => loc
    | .xchg c => if p = 0 then loc else { loc with xchg := Packet.recvUniq c (f 0) loc.xchg }
  idle _ _ _ := False
  loc₀ _ := .fresh
  world₀ := .empty

theorem script_root : call.protocol.script 0 = rootScript := by simp [protocol]

theorem script_peer {p : Fin n} (hp : p ≠ 0) : call.protocol.script p = peerScript := by
  simp [protocol, hp]

def sequence : List Coll := [.allgather, .xchg .plen, .xchg .result, .smBarrier, .smBarrier]

/-- All processes enter the same collectives in the same order. -/
theorem colls_script (p : Fin n) : colls (call.protocol.script p) = sequence := by
  by_cases hp : p = 0
  · subst hp
    simp [script_root, rootScript, createdScript, sizesScript, UniqPath.rootScript, createScript,
      colls, lift, sequence]
  · simp [script_peer call hp, peerScript, sizesScript, UniqPath.peerScript, attachScript, colls,
      lift, sequence]

end Call

end Xpm

end LibQuo
