import LibQuo.AutoDistrib.Selection
import LibQuo.Lib.Replay
import LibQuo.Lib.Stranding
import LibQuo.UniqPath
import Mathlib.Data.Fintype.Basic

/-!
`QUO_auto_distrib` as the processes of a node run it together, from the first
barrier to the decision. Process 0 reads the binding of every process, writes
the table of affinities to a segment and removes its path; the others attach to
the segment and read the table. What the code keeps in an `int` wraps, and a copy that
leaves the segment is a fault of the process.
-/

namespace LibQuo

abbrev Cpuset := Finset Nat

namespace AutoDistrib
open CMem Sm Spmd

inductive Act (n : Nat)
  | entry
  | nobjsByType
  | xchg (a : UniqPath.Act)
  | smConstruct
  | callocNranks
  | callocRankIds
  | qidsBegin (rid : Nat)
  | qidsQuery (rid : Nat) (rank : Fin n)
  | qidsEnd (rid : Nat)
  | sumSegLen
  | sm (a : Sm.Act)
  | writeHeader
  | writeRow (i : Nat)
  | readHeader
  | readRow (i : Nat)
  | decide
  deriving DecidableEq

inductive Coll
  | smBarrier
  | xchg (c : UniqPath.Coll)
  | smSegLen
  deriving DecidableEq

/-- The pthread barrier of the node, and its communicator. -/
inductive Chan
  | barrier
  | nodeComm
  deriving DecidableEq

variable {n : Nat}

/-- From this size on, the `off_t` of `ftruncate` is negative. -/
def offLimit : Nat := 2 ^ 63

/-- The codes an allocation or a system call may end a step with. -/
def Act.failsWith : Act n → List Rc
  | .xchg a => a.failsWith
  | .sm a => a.failsWith
  | .smConstruct | .callocNranks | .callocRankIds | .readRow _ => [.errOor]
  | .qidsQuery _ _ => [.errOor, .errTopo]
  | _ => []

/-- One call by all processes of a node of `n`: the number of target resources
and their cpusets, the bound, the path process 0 makes up, the paths that `unlink`
cannot take away, which local steps end in which error, which allocations of the
decision succeed, and the bindings at the beginning. -/
structure Call (n : Nat) where
  nobjs : Except Failure Nat
  objCpuset : Nat → Cpuset
  maxQids : Int
  segName : Except Failure Path
  keeps : Path → Bool
  fault : Fin n → Act n → Option Rc
  fault_mem : ∀ p a e, fault p a = some e → e ∈ a.failsWith
  malloc : Fin n → Site → Bool
  binding₀ : Fin n → Cpuset

/-- The variables of `QUO_auto_distrib` and of what it calls. -/
structure Local where
  xchg : UniqPath.Local
  smseg : Handle
  nranksInRes : List Int
  rankIdsInRes : List (List Int)
  smpranks : List Int
  smSegLen : Int
  tabp : Nat
  outSelected : Int

def Local.fresh : Local := ⟨.fresh, .fresh, [], [], [], 0, 0, 0⟩

/-- The two arrays as a table of ids. -/
def Local.rows (loc : Local) : List (List Int) :=
  List.zipWith (fun k row => row.take k.toNat) loc.nranksInRes loc.rankIdsInRes

/-- The bindings of the processes and the files of the node; and, for the record,
the binding each process entered the call with, and what process 0 has read. -/
structure World (n : Nat) where
  binding : Fin n → Cpuset
  entered : Fin n → Option Cpuset
  reads : List (Nat × Fin n × Cpuset)
  files : Files

namespace Call

variable (call : Call n)

def nres : Nat :=
  match call.nobjs with
  | .ok k => k
  | .error _ => 0

def headerLen : Int := wrapInt (call.nres * 4)

/-- How many counts the header has. -/
def headerInts : Nat := toSize call.headerLen / 4

/-- `sm_seg_len` for so many entries. -/
def segLen (numEntries : Int) : Int := wrapInt (call.headerLen + wrapInt numEntries * 4)

def qidsInType (n rid : Nat) : List (Act n) :=
  .qidsBegin rid :: (List.finRange n).map (.qidsQuery rid) ++ [.qidsEnd rid]

def queries : List (Act n) := (List.range call.nres).flatMap (qidsInType n)

/-- A loop over the resources. -/
def perRes (f : Nat → Act n) : List (Act n) := (List.range call.nres).map f

theorem forall_mem_perRes {f : Nat → Act n} {Q : Act n → Prop} :
    (∀ a ∈ call.perRes f, Q a) ↔ ∀ i < call.nres, Q (f i) := by
  simp [perRes]

theorem forall_mem_queries {Q : Act n → Prop} : (∀ a ∈ call.queries, Q a) ↔
    ∀ rid < call.nres, Q (.qidsBegin rid) ∧ (∀ r, Q (.qidsQuery rid r)) ∧ Q (.qidsEnd rid) := by
  simp only [queries, qidsInType, List.mem_flatMap, List.mem_range, List.mem_append, List.mem_cons,
    List.mem_map, List.mem_finRange, true_and, List.not_mem_nil, or_false]
  constructor
  · intro h rid hrid
    exact ⟨h _ ⟨rid, hrid, .inl (.inl rfl)⟩, fun r => h _ ⟨rid, hrid, .inl (.inr ⟨r, rfl⟩)⟩,
      h _ ⟨rid, hrid, .inr rfl⟩⟩
  · rintro h a ⟨rid, hrid, (rfl | ⟨r, rfl⟩) | rfl⟩
    · exact (h rid hrid).1
    · exact (h rid hrid).2.1 r
    · exact (h rid hrid).2.2

def tableScript : List (Instr (Act n) Coll) :=
  [.act .smConstruct, .act .callocNranks, .act .callocRankIds] ++ call.queries.map .act ++
  [.act .sumSegLen]

def segmentScript : List (Instr (Act n) Coll) :=
  createScript.map (.act ∘ .sm) ++ [.act .writeHeader] ++ (call.perRes .writeRow).map .act

/-- Process 0, up to the data being published. -/
def publishScript : List (Instr (Act n) Coll) :=
  [.act .entry, .coll .smBarrier, .act .nobjsByType] ++
  UniqPath.rootScript.map (lift .xchg .xchg) ++ call.tableScript ++
  [.coll .smSegLen] ++ call.segmentScript

def rootScript : List (Instr (Act n) Coll) :=
  call.publishScript ++
  [.coll .smBarrier, .coll .smBarrier, .act (.sm .unlink), .act .decide]

/-- The other processes, up to the data being published. -/
def awaitScript : List (Instr (Act n) Coll) :=
  [.act .entry, .coll .smBarrier, .act .nobjsByType] ++
  UniqPath.peerScript.map (lift .xchg .xchg) ++
  [.act .smConstruct, .act .callocNranks, .act .callocRankIds, .coll .smSegLen]

/-- The other processes, up to having the table. -/
def readScript : List (Instr (Act n) Coll) :=
  awaitScript ++ [.coll .smBarrier] ++ attachScript.map (.act ∘ .sm) ++
  [.coll .smBarrier, .act .readHeader] ++ (call.perRes .readRow).map .act

def peerScript : List (Instr (Act n) Coll) := call.readScript ++ [.act .decide]

/-- What `out_selected` becomes. -/
def decide (p : Fin n) (loc : Local) : Except (Halt Int) Int :=
  match selectFrom (call.malloc p) n p call.maxQids loc.rows with
  | .ok v => .ok v
  | .error (.code rc) => .error (.code rc.code)
  | .error (.fault f) => .error (.fault f)

/-- A copy to or from the segment that stops `stop` bytes behind its base. -/
def withBase (loc : Local) (w : World n) (stop : Nat) (f : Nat → Local × Files) :
    Except (Halt Int) Local × World n :=
  match loc.smseg.segBasep with
  | none => (.error (.fault .outOfBounds), w)
  | some i =>
      if (w.files.store i).size < stop then (.error (.fault .outOfBounds), w)
      else (.ok (f i).1, { w with files := (f i).2 })

variable [NeZero n]

/-- A local step of process `p` that no allocation or system call makes fail. -/
def perform (p : Fin n) : Act n → Local → World n → Except (Halt Int) Local × World n
  | .entry, loc, w =>
      if call.maxQids ≤ 0 then (.error (.code Rc.errInvldArg.code), w)
      else (.ok { loc with outSelected := 0 },
        { w with entered := Function.update w.entered p (some (w.binding p)) })
  | .nobjsByType, loc, w =>
      match call.nobjs with
      | .error e => (.error (.code e.code), w)
      | .ok 0 => (.error (.code Rc.errNotFound.code), w)
      | .ok (_ + 1) => (.ok loc, w)
  | .xchg a, loc, w =>
      match if p = 0 then UniqPath.execRoot call.segName a loc.xchg
        else UniqPath.execPeer a loc.xchg with
      | .error e => (.error e, w)
      | .ok x => (.ok { loc with xchg := x }, w)
  | .smConstruct, loc, w => (.ok { loc with smseg := .fresh }, w)
  | .callocNranks, loc, w => (.ok { loc with nranksInRes := List.replicate call.nres 0 }, w)
  | .callocRankIds, loc, w => (.ok { loc with rankIdsInRes := List.replicate call.nres [] }, w)
  | .qidsBegin rid, loc, w =>
      (.ok { loc with
        nranksInRes := loc.nranksInRes.set rid 0
        rankIdsInRes := loc.rankIdsInRes.set rid []
        smpranks := [] }, w)
  | .qidsQuery rid rank, loc, w =>
      -- `hwloc_bitmap_intersects` of the binding with the cpuset of the object
      (.ok { loc with smpranks :=
        if (w.binding rank ∩ call.objCpuset rid).Nonempty then loc.smpranks ++ [(rank : Int)]
        else loc.smpranks },
        { w with reads := w.reads ++ [(rid, rank, w.binding rank)] })
  | .qidsEnd rid, loc, w =>
      (.ok { loc with
        nranksInRes := loc.nranksInRes.set rid loc.smpranks.length
        rankIdsInRes := loc.rankIdsInRes.set rid loc.smpranks }, w)
  | .sumSegLen, loc, w =>
      (.ok { loc with smSegLen := call.segLen loc.nranksInRes.sum }, w)
  | .sm a, loc, w =>
      if a = .ftruncate ∧ offLimit ≤ toSize loc.smSegLen then (.error (.code Rc.errSys.code), w)
      else
        match Sm.exec call.keeps loc.xchg.result (toSize loc.smSegLen) a loc.smseg w.files with
        | (.error e, fs) => (.error e, { w with files := fs })
        | (.ok h, fs) => (.ok { loc with smseg := h }, { w with files := fs })
  | .writeHeader, loc, w => withBase loc w (toSize call.headerLen) fun i =>
      ({ loc with tabp := call.headerInts },
        w.files.write i 0 (loc.nranksInRes.take call.headerInts))
  | .writeRow k, loc, w =>
      let nranks := (loc.nranksInRes.getD k 0).toNat
      withBase loc w (4 * (loc.tabp + nranks)) fun i =>
        ({ loc with tabp := loc.tabp + nranks },
          w.files.write i loc.tabp ((loc.rankIdsInRes.getD k []).take nranks))
  | .readHeader, loc, w => withBase loc w (toSize call.headerLen) fun i =>
      ({ loc with
        nranksInRes := w.files.read i 0 call.headerInts ++ loc.nranksInRes.drop call.headerInts
        tabp := call.headerInts }, w.files)
  | .readRow k, loc, w =>
      let nranks := (loc.nranksInRes.getD k 0).toNat
      withBase loc w (4 * (loc.tabp + nranks)) fun i =>
        ({ loc with
          rankIdsInRes := loc.rankIdsInRes.set k (w.files.read i loc.tabp nranks)
          tabp := loc.tabp + nranks }, w.files)
  | .decide, loc, w =>
      match call.decide p loc with
      | .error e => (.error e, w)
      | .ok v => (.ok { loc with outSelected := v }, w)

/-- The call as a protocol. Outside of it a process may rebind itself. -/
def protocol : Protocol n (Act n) Coll Chan Local (World n) Msg (Halt Int) where
  script p := if p = 0 then call.rootScript else call.peerScript
  chan
    | .smBarrier => .barrier
    | .xchg _ | .smSegLen => .nodeComm
  root
    | .smBarrier => none
    | .xchg _ | .smSegLen => some 0
  exec p a loc w :=
    match call.fault p a with
    | some e => (.error (.code e.code), w)
    | none => call.perform p a loc w
  send p c loc :=
    if p = 0 then
      match c with
      | .smBarrier => .nothing
      | .xchg c => UniqPath.send c loc.xchg
      | .smSegLen => .int loc.smSegLen
    else .nothing
  recv p c f loc :=
    if p = 0 then loc
    else
      match c, f 0 with
      | .xchg c, some m => { loc with xchg := UniqPath.recv c m loc.xchg }
      | .smSegLen, some (.int v) => { loc with smSegLen := v }
      | _, _ => loc
  idle p w w' := ∃ b, w' = { w with binding := Function.update w.binding p b }
  loc₀ _ := .fresh
  world₀ := ⟨call.binding₀, fun _ => none, [], .empty⟩

def sequence : List Coll :=
  [.smBarrier, .xchg .plen, .xchg .result, .smSegLen, .smBarrier, .smBarrier]

omit [NeZero n] in
theorem colls_tableScript : colls call.tableScript = [] := by
  simp [tableScript, colls_append, colls_acts, colls]

omit [NeZero n] in
theorem colls_segmentScript : colls call.segmentScript = [] := by
  simp [segmentScript, createScript, colls_acts, colls]

omit [NeZero n] in
theorem colls_rootScript : colls call.rootScript = sequence := by
  simp [rootScript, publishScript, UniqPath.rootScript, colls_append, colls_tableScript,
    colls_segmentScript, colls, lift, sequence]

omit [NeZero n] in
theorem colls_peerScript : colls call.peerScript = sequence := by
  simp [peerScript, readScript, awaitScript, UniqPath.peerScript, attachScript, colls_append,
    colls_acts, colls, lift, sequence]

/-- All processes enter the same collectives in the same order. -/
theorem colls_script (p : Fin n) : colls (call.protocol.script p) = sequence := by
  by_cases hp : p = 0
  · simp [protocol, hp, colls_rootScript]
  · simp [protocol, hp, colls_peerScript]

end Call

end AutoDistrib

end LibQuo
