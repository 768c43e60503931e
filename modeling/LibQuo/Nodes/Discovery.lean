import LibQuo.Lib.Collective
import LibQuo.Nodes.Color

/-!
`smprank_setup`, `pid_smprank_xchange` and `node_rank_xchange` of `quo-mpi.c`: the
processes of a job find out which of them share a node. Every variable of a process is
a function of the process; a collective reads the functions of its members.
-/

namespace LibQuo.Nodes
open CMem Collective

/-- A job of `P` processes: their net numbers and pids, and the `qsort` of its nodes. -/
structure Job (P : Nat) where
  qsort : Qsort
  netNum : Fin P → UInt64
  pid : Fin P → Int32

/-- `pid_smprank_map_t`. -/
structure PidSmprank where
  pid : Int64
  smprank : Int
  deriving DecidableEq

/-- `quo_mpi_t`, as far as it is about ranks. -/
structure QuoMpi (P : Nat) where
  rank : Int
  nranks : Int
  smpcomm : List (Fin P)
  smprank : Int
  nsmpranks : Int
  nnodes : Int
  pidSmprankMap : List PidSmprank
  nodeRanks : List Int

variable {P : Nat}

/-- The communicator that the user has passed, duplicated. -/
def commchan : List (Fin P) := List.finRange P

namespace Job

variable (job : Job P)

def initSetup (p : Fin P) : QuoMpi P where
  rank := commRank commchan p
  nranks := commSize (commchan : List (Fin P))
  smpcomm := []
  smprank := 0
  nsmpranks := 0
  nnodes := 0
  pidSmprankMap := []
  nodeRanks := []

/-- `mycolor`, once the net numbers are gathered. -/
def mycolor (p : Fin P) : Except (Halt Int) Nat := do
  let netnums ← allgather commchan fun q => return job.netNum q
  getMyColor job.qsort netnums (initSetup p).nranks.toNat (job.netNum p)

def smpcomm (p : Fin P) : Except (Halt Int) (List (Fin P)) :=
  commSplit commchan (fun q => do return (((← job.mycolor q) : Int), (initSetup q).rank)) p

def nnodeContrib (p : Fin P) : Except (Halt Int) Int := do
  return if commRank (← job.smpcomm p) p = 0 then 1 else 0

def smprankSetup (p : Fin P) : Except (Halt Int) (QuoMpi P) := do
  let smpcomm ← job.smpcomm p
  let nnodes ← allreduceSum commchan job.nnodeContrib
  return { initSetup p with
    smpcomm := smpcomm
    nsmpranks := commSize smpcomm
    smprank := commRank smpcomm p
    nnodes := nnodes }

def pidSmprankXchange (p : Fin P) : Except (Halt Int) (QuoMpi P) := do
  let mpi ← job.smprankSetup p
  let map ← allgather mpi.smpcomm fun q => do
    return ⟨(job.pid q).toInt64, (← job.smprankSetup q).smprank⟩
  return { mpi with pidSmprankMap := map }

def nodeRankXchange (p : Fin P) : Except (Halt Int) (QuoMpi P) := do
  let mpi ← job.pidSmprankXchange p
  let ranks ← allgather mpi.smpcomm fun q => do return (← job.pidSmprankXchange q).rank
  return { mpi with nodeRanks := ranks }

end Job

def smprank2pid (mpi : QuoMpi P) (smprank : Int) : Except (Halt Int) Int32 := do
  return (← loadInt mpi.pidSmprankMap smprank).pid.toInt32

end LibQuo.Nodes
