import LibQuo.AutoDistrib.Protocol
import Mathlib.Data.List.FinRange

/-!
From the bindings of the processes to the decision of `QUO_auto_distrib`: the queries of
`quo.c` and `quo-hwloc.c`, and how the lists they build meet what `quo-set.c` and the
selection ask of them.
-/

namespace LibQuo.AutoDistrib
open CMem SetIntersection

/-- The allocations and system calls between the bindings and the decision. -/
inductive Sys
  | bitmapAlloc (rid rank : Nat)
  | procCpubind (rid rank : Nat)
  | reallocSmpranks (rid rank : Nat)
  | select (s : Site)
  deriving DecidableEq, Repr

/-- A node as the queries see it: the pid of every process, the binding of every pid, and
the cpusets of the target objects in logical order. -/
structure Node where
  nqid : Nat
  pidSmprankMap : List Int
  mapped : pidSmprankMap.length = nqid
  curBind : Int → Cpuset
  objs : List Cpuset

/-- The ids of those of the processes `ms` that hold units of the object. -/
def idsAmong {n : Nat} (held : Fin n → Cpuset) (obj : Cpuset) (ms : List (Fin n)) : List Int :=
  (ms.filter fun m => (held m ∩ obj).Nonempty).map fun m : Fin n => (m : Int)

theorem idsAmong_cons {n : Nat} (held : Fin n → Cpuset) (obj : Cpuset) (m : Fin n)
    (ms : List (Fin n)) : idsAmong held obj (m :: ms) =
      if (held m ∩ obj).Nonempty then (m : Int) :: idsAmong held obj ms
      else idsAmong held obj ms := by
  by_cases h : (held m ∩ obj).Nonempty
  · simp [idsAmong, h]
  · simp [idsAmong, h]

namespace Node

variable (node : Node)

section Source

variable (sys : Sys → Bool)

def smprank2pid (rank : Nat) : Except (Halt Rc) Int := load node.pidSmprankMap rank

def getCurBind (rid rank : Nat) (pid : Int) : Except (Halt Rc) Cpuset :=
  if sys (.bitmapAlloc rid rank) = false then .error (.code .errOor)
  else if sys (.procCpubind rid rank) = false then .error (.code .errTopo)
  else .ok (node.curBind pid)

def isInCpusetByTypeId (rid rank : Nat) (pid : Int) : Except (Halt Rc) Bool :=
  match node.objs[rid]? with
  | none => .error (.code .errInvldArg)
  | some cpuset => do
      let curBind ← node.getCurBind sys rid rank pid
      .ok (decide (curBind ∩ cpuset).Nonempty)

/-- One turn of the loop of `QUO_qids_in_type`. -/
def addSmprank (rid : Nat) (smpranks : List Int) (rank : Nat) : Except (Halt Rc) (List Int) := do
  let rpid ← node.smprank2pid rank
  let inCpuset ← node.isInCpusetByTypeId sys rid rank rpid
  if inCpuset then
    if sys (.reallocSmpranks rid rank) = false then .error (.code .errOor)
    else .ok (smpranks ++ [(rank : Int)])
  else .ok smpranks

/-- `QUO_qids_in_type`. A loop without turns leaves `rc` as it starts, `QUO_ERR`. -/
def qidsInType (rid : Nat) : Except (Halt Rc) (List Int) :=
  if node.nqid = 0 then .error (.code .err)
  else (List.range node.nqid).foldlM (node.addSmprank sys rid) []

/-- The queries of `get_qids_in_target_type`. -/
def qidsInTargetType (nTarget : Nat) : Except (Halt Rc) (List (List Int)) :=
  if nTarget = 0 then .error (.code .errInvldArg)
  else (List.range nTarget).mapM (node.qidsInType sys)

/-- `QUO_auto_distrib` in process `mySmpRank`, on the table that process 0 builds. -/
def autoDistrib (mySmpRank max : Int) : Except (Halt Rc) Int :=
  if max ≤ 0 then .error (.code .errInvldArg)
  else if node.objs.length = 0 then .error (.code .errNotFound)
  else do
    let rankIds ← node.qidsInTargetType sys node.objs.length
    selectFrom (fun s => sys (.select s)) node.nqid mySmpRank max rankIds

end Source

def cpuset (m : Fin node.nqid) : Cpuset :=
  node.curBind (node.pidSmprankMap.get (m.cast node.mapped.symm))

/-- Process `m` holds units of the object. -/
def Meets (obj : Cpuset) (m : Fin node.nqid) : Prop := (node.cpuset m ∩ obj).Nonempty

instance (obj : Cpuset) : DecidablePred (node.Meets obj) := fun _ =>
  inferInstanceAs (Decidable (Finset.Nonempty _))

/-- Process `m` meets two of the resources. -/
def MeetsTwo (m : Fin node.nqid) : Prop :=
  ∃ r r' : Fin node.objs.length, r ≠ r' ∧ node.Meets node.objs[r] m ∧ node.Meets node.objs[r'] m

/-- The ids of the processes that meet an object, in order. -/
def idsOf (obj : Cpuset) : List Int := idsAmong node.cpuset obj (List.finRange node.nqid)

theorem mem_idsOf {obj : Cpuset} {v : Int} :
    v ∈ node.idsOf obj ↔ ∃ m, node.Meets obj m ∧ v = m := by
  simp [idsOf, idsAmong, Meets, eq_comm]

theorem natCast_mem_idsOf {obj : Cpuset} (m : Fin node.nqid) :
    (m : Int) ∈ node.idsOf obj ↔ node.Meets obj m := by
  rw [mem_idsOf]
  constructor
  · rintro ⟨m', hm', h⟩
    obtain rfl : m = m' := Fin.ext (Int.ofNat.inj h)
    exact hm'
  · intro hm
    exact ⟨m, hm, rfl⟩

theorem idsOf_sorted (obj : Cpuset) : (node.idsOf obj).Pairwise (· < ·) := by
  apply List.pairwise_map.mpr
  apply List.Pairwise.filter
  apply (List.pairwise_lt_finRange node.nqid).imp
  intro a b hab
  exact Int.ofNat_lt.mpr hab

theorem idsOf_range {obj : Cpuset} {v : Int} (hv : v ∈ node.idsOf obj) : 0 ≤ v ∧ v < node.nqid := by
  obtain ⟨m, -, rfl⟩ := node.mem_idsOf.mp hv
  omega

def affinity : AffinityTable where
  n := node.nqid
  rankIds := node.objs.map node.idsOf
  sorted := by
    intro row hrow
    obtain ⟨obj, -, rfl⟩ := List.mem_map.mp hrow
    exact node.idsOf_sorted obj
  range := by
    intro row hrow id hid
    obtain ⟨obj, -, rfl⟩ := List.mem_map.mp hrow
    exact node.idsOf_range hid

theorem sharesTwo_iff (m : Fin node.nqid) : node.affinity.SharesTwo m ↔ node.MeetsTwo m := by
  have hlen : node.affinity.nres = node.objs.length := List.length_map _
  have hcov : ∀ r : Fin node.affinity.nres,
      node.affinity.Covers m r ↔ node.Meets node.objs[r.cast hlen] m := by
    intro r
    have hrow : node.affinity.rankIds[r] = node.idsOf node.objs[r.cast hlen] := List.getElem_map _
    unfold AffinityTable.Covers
    rw [hrow]
    exact node.natCast_mem_idsOf m
  constructor
  · rintro ⟨r, r', hne, h, h'⟩
    refine ⟨r.cast hlen, r'.cast hlen, ?_, (hcov r).mp h, (hcov r').mp h'⟩
    intro heq
    exact hne (Fin.cast_injective hlen heq)
  · rintro ⟨r, r', hne, h, h'⟩
    refine ⟨r.cast hlen.symm, r'.cast hlen.symm, ?_, (hcov _).mpr h, (hcov _).mpr h'⟩
    intro heq
    exact hne (Fin.cast_injective hlen.symm heq)

/-- A rank inside the table gets its turn of the loop. -/
theorem addSmprank_ok {rid : Nat} {obj : Cpuset} (hobj : node.objs[rid]? = some obj)
    (m : Fin node.nqid) (smpranks : List Int) :
    node.addSmprank (fun _ => true) rid smpranks m =
      .ok (if node.Meets obj m then smpranks ++ [(m : Int)] else smpranks) := by
  have hpid : node.smprank2pid m = .ok (node.pidSmprankMap.get (m.cast node.mapped.symm)) :=
    load_of_lt (node.mapped.symm ▸ m.isLt)
  have hin : node.isInCpusetByTypeId (fun _ => true) rid m
      (node.pidSmprankMap.get (m.cast node.mapped.symm)) = .ok (decide (node.Meets obj m)) := by
    simp only [isInCpusetByTypeId, hobj, getCurBind, Bool.true_eq_false, ↓reduceIte, ok_bind]
    rfl
  rw [addSmprank, hpid, ok_bind, hin, ok_bind]
  by_cases h : node.Meets obj m
  · simp [h]
  · simp [h]

theorem foldlM_addSmprank {rid : Nat} {obj : Cpuset} (hobj : node.objs[rid]? = some obj)
    (ms : List (Fin node.nqid)) (smpranks : List Int) :
    (ms.map Fin.val).foldlM (node.addSmprank (fun _ => true) rid) smpranks =
      .ok (smpranks ++ idsAmong node.cpuset obj ms) := by
  induction ms generalizing smpranks with
  | nil => simp [idsAmong]; rfl
  | cons m ms ih =>
    rw [List.map_cons, List.foldlM_cons, node.addSmprank_ok hobj, ok_bind, ih, idsAmong_cons]
    unfold Meets
    by_cases h : (node.cpuset m ∩ obj).Nonempty
    · simp [h]
    · simp [h]

/-- `QUO_qids_in_type` answers the ids that meet the object. -/
theorem qidsInType_ok (hn : 1 ≤ node.nqid) {rid : Nat} {obj : Cpuset}
    (hobj : node.objs[rid]? = some obj) :
    node.qidsInType (fun _ => true) rid = .ok (node.idsOf obj) := by
  have h := node.foldlM_addSmprank hobj (List.finRange node.nqid) []
  rw [List.map_coe_finRange_eq_range] at h
  rw [qidsInType, if_neg (by omega), h, List.nil_append, idsOf]

theorem qidsInTargetType_ok (hn : 1 ≤ node.nqid) (hres : 1 ≤ node.objs.length) :
    node.qidsInTargetType (fun _ => true) node.objs.length = .ok node.affinity.rankIds := by
  have hget : ∀ rid (h : rid < node.objs.length), node.objs.getD rid ∅ = node.objs[rid] := by
    intro rid h
    simp [List.getElem?_eq_getElem h]
  have hrows : ∀ rid ∈ List.range node.objs.length,
      node.qidsInType (fun _ => true) rid = .ok (node.idsOf (node.objs.getD rid ∅)) := by
    intro rid hrid
    have hlt : rid < node.objs.length := List.mem_range.mp hrid
    rw [hget rid hlt]
    exact node.qidsInType_ok hn (List.getElem?_eq_getElem hlt)
  rw [qidsInTargetType, if_neg (by omega), mapM_ok hrows]
  congr 1
  apply List.ext_getElem
  · simp [affinity]
  · intro rid h h'
    have hlt : rid < node.objs.length := by simpa using h
    simp only [affinity, List.getElem_map, List.getElem_range, hget rid hlt]

end Node

inductive Branch
  | disjoint
  | allOverlap
  | someOverlap
  deriving DecidableEq, Repr

/-- The way `QUO_auto_distrib` takes, by the length of `k_set_intersection`. -/
def branchOf (nsmpRanks : Nat) (k : List Int) : Branch :=
  if k.length = 0 then .disjoint
  else if nsmpRanks = k.length then .allOverlap
  else .someOverlap

/-- What each way makes of `*out_selected`. -/
def distribute (malloc : Site → Bool) (nsmpRanks : Nat) (mySmpRank max : Int)
    (rankIds : List (List Int)) (k : List Int) : Branch → Except (Halt Rc) Int
  | .disjoint => .ok (disjointRows mySmpRank max 0 rankIds)
  | .allOverlap => .ok (if mySmpRank < mulInt max rankIds.length then 1 else 0)
  | .someOverlap =>
      if malloc .bigHtab = false then .error (.code .errOor)
      else do
        let htab ← fillHtab (List.replicate nsmpRanks (-1)) k
        partialRows mySmpRank max htab 0 rankIds

theorem selectFrom_eq_distribute (malloc : Site → Bool) (nsmpRanks : Nat) (mySmpRank max : Int)
    (rankIds : List (List Int)) : selectFrom malloc nsmpRanks mySmpRank max rankIds =
      getKSetIntersection (fun s => malloc (.set s)) rankIds >>= fun k =>
        distribute malloc nsmpRanks mySmpRank max rankIds k (branchOf nsmpRanks k) := by
  unfold selectFrom
  congr 1
  funext k
  by_cases h₀ : k.length = 0
  · simp [branchOf, distribute, h₀]
  · by_cases hall : nsmpRanks = k.length
    · simp only [branchOf, distribute, h₀, hall, ↓reduceIte]
    · simp only [branchOf, distribute, h₀, hall, ↓reduceIte]

namespace AffinityTable

variable (T : AffinityTable)

theorem sharedIds_card_eq_zero_iff : T.sharedIds.card = 0 ↔ ∀ m, ¬T.SharesTwo m := by
  rw [sharedIds, Finset.card_map, Finset.card_eq_zero, Finset.filter_eq_empty_iff]
  simp

/-- The length of the set of shared ids tells the three cases apart. -/
theorem branchOf_iff {k : List Int} (hn : 1 ≤ T.n) (hk : k.length = T.sharedIds.card) :
    (branchOf T.n k = .disjoint ↔ ∀ m, ¬T.SharesTwo m) ∧
      (branchOf T.n k = .allOverlap ↔ ∀ m, T.SharesTwo m) ∧
      (branchOf T.n k = .someOverlap ↔ (∃ m, T.SharesTwo m) ∧ ∃ m, ¬T.SharesTwo m) := by
  have hall : k.length = T.n ↔ ∀ m, T.SharesTwo m := by rw [hk, T.sharedIds_card_eq_iff]; rfl
  have hnone : k.length = 0 ↔ ∀ m, ¬T.SharesTwo m := by rw [hk, T.sharedIds_card_eq_zero_iff]
  have hsome : ((∃ m, T.SharesTwo m) ∧ ∃ m, ¬T.SharesTwo m) ↔ k.length ≠ 0 ∧ k.length ≠ T.n := by
    rw [Ne, Ne, hnone, hall]
    simp only [not_forall, not_not]
  rw [← hnone, ← hall, hsome]
  unfold branchOf
  by_cases h₀ : k.length = 0
  · have : ¬k.length = T.n := by omega
    simp [h₀]
    omega
  · by_cases h₁ : T.n = k.length
    · simp [h₀, h₁]
    · simp [h₀, h₁, Ne.symm h₁]

end AffinityTable

namespace Node

variable (node : Node)

/-- What the lists `rankIds` of a node and their shared ids `k` are, and what the calls that
use them make of them. -/
structure Exact (rankIds : List (List Int)) (k : List Int) : Prop where
  queried : node.qidsInTargetType (fun _ => true) node.objs.length = .ok rankIds
  length : rankIds.length = node.objs.length
  sorted : ∀ row ∈ rankIds, row.Pairwise (· < ·)
  mem : ∀ (rid : Nat) row obj, rankIds[rid]? = some row → node.objs[rid]? = some obj →
    ∀ v, v ∈ row ↔ ∃ m, node.Meets obj m ∧ v = (m : Int)
  accepted : getKSetIntersection (fun _ => true) rankIds = .ok k
  rows_range : ∀ row ∈ rankIds, ∀ id ∈ row, 0 ≤ id ∧ id < node.nqid
  range : ∀ id ∈ k, 0 ≤ id ∧ id < node.nqid
  decides : ∀ (m : Fin node.nqid) max, 0 < max → ∃ v : Int,
    node.autoDistrib (fun _ => true) m max = .ok v ∧
      distribute (fun _ => true) node.nqid m max rankIds k (branchOf node.nqid k) = .ok v
  disjoint : branchOf node.nqid k = .disjoint ↔ ∀ m, ¬node.MeetsTwo m
  allOverlap : branchOf node.nqid k = .allOverlap ↔ ∀ m, node.MeetsTwo m
  someOverlap : branchOf node.nqid k = .someOverlap ↔
    (∃ m, node.MeetsTwo m) ∧ ∃ m, ¬node.MeetsTwo m

/-- Nothing on the way from the bindings to the decision is refused or out of range. -/
theorem pipeline_exact (hn : 1 ≤ node.nqid) (hres : 1 ≤ node.objs.length) :
    ∃ rankIds k, node.Exact rankIds k := by
  have hq := node.qidsInTargetType_ok hn hres
  obtain ⟨k, hk, -, -, hlen, hkr⟩ := node.affinity.getKSetIntersection_rankIds
  obtain ⟨hnone, hall, hsome⟩ := node.affinity.branchOf_iff hn hlen
  refine ⟨node.affinity.rankIds, k, hq, List.length_map _, node.affinity.sorted, ?_, hk,
    node.affinity.range, hkr, ?_, ?_, ?_, ?_⟩
  · intro rid row obj hrow hobj v
    have : row = node.idsOf obj := by simpa [affinity, hobj] using hrow.symm
    rw [this, node.mem_idsOf]
  · intro m max hmax
    obtain ⟨v, hsel⟩ : ∃ v : Int, selectFrom (fun _ => true) node.nqid m max
        node.affinity.rankIds = .ok v := ⟨_, node.affinity.selectFrom_spec m max⟩
    refine ⟨v, ?_, ?_⟩
    · rw [autoDistrib, if_neg (by omega), if_neg (by omega), hq, ok_bind]
      exact hsel
    · rw [selectFrom_eq_distribute, hk, ok_bind] at hsel
      exact hsel
  · exact hnone.trans (forall_congr' fun m => not_congr (node.sharesTwo_iff m))
  · exact hall.trans (forall_congr' node.sharesTwo_iff)
  · apply hsome.trans
    exact and_congr (exists_congr node.sharesTwo_iff)
      (exists_congr fun m => not_congr (node.sharesTwo_iff m))

end Node

/-- Two processes on three objects: process 0 is bound to two of them, process 1 to the
third. -/
def pairNode : Node where
  nqid := 2
  pidSmprankMap := [311, 312]
  mapped := rfl
  curBind pid := if pid = 311 then {0, 1} else {2}
  objs := [{0}, {1}, {2}]

theorem pairNode_exact : ∃ rankIds k, pairNode.Exact rankIds k :=
  pairNode.pipeline_exact (by decide) (by decide)

namespace Call

variable {n : Nat} (call : Call n)

/-- The node of the call, while its processes are bound to `b`. -/
def node (b : Fin n → Cpuset) : Node where
  nqid := n
  pidSmprankMap := (List.finRange n).map fun m : Fin n => (m : Int)
  mapped := by simp
  curBind pid := if h : pid.toNat < n then b ⟨pid.toNat, h⟩ else ∅
  objs := (List.range call.nres).map call.objCpuset

theorem node_cpuset (b : Fin n → Cpuset) : (call.node b).cpuset = b := by
  funext m
  have hm : ((call.node b).pidSmprankMap.get (m.cast (call.node b).mapped.symm)).toNat = m := by
    simp only [node, List.get_eq_getElem, List.getElem_map, List.getElem_finRange,
      Int.toNat_natCast]
    rfl
  have hlt : ((call.node b).pidSmprankMap.get (m.cast (call.node b).mapped.symm)).toNat < n := by
    rw [hm]
    exact m.isLt
  have hb : (⟨_, hlt⟩ : Fin n) = m := Fin.ext hm
  rw [Node.cpuset]
  show (if h : _ then b ⟨_, h⟩ else ∅) = b m
  rw [dif_pos hlt, hb]

theorem node_affinity (b : Fin n → Cpuset) : (call.node b).affinity.rankIds =
    (List.range call.nres).map fun rid => idsAmong b (call.objCpuset rid) (List.finRange n) := by
  have hids : (call.node b).idsOf = fun obj => idsAmong b obj (List.finRange n) := by
    funext obj
    rw [Node.idsOf, node_cpuset]
    rfl
  have hrows : (call.node b).affinity.rankIds =
      ((List.range call.nres).map call.objCpuset).map (call.node b).idsOf := rfl
  rw [hrows, hids, List.map_map]
  rfl

variable [NeZero n]

def performAll (p : Fin n) : List (Act n) → Local → World n → Except (Halt Int) Local × World n
  | [], loc, w => (.ok loc, w)
  | a :: rest, loc, w =>
      match call.perform p a loc w with
      | (.error e, w') => (.error e, w')
      | (.ok loc', w') => performAll p rest loc' w'

variable {call} {p : Fin n} {loc loc' loc'' : Local} {w w' w'' : World n}

theorem performAll_cons {a : Act n} {rest : List (Act n)}
    (h : call.perform p a loc w = (.ok loc', w')) :
    call.performAll p (a :: rest) loc w = call.performAll p rest loc' w' := by
  rw [performAll, h]

theorem performAll_append {as rest : List (Act n)}
    (h : call.performAll p as loc w = (.ok loc', w')) :
    call.performAll p (as ++ rest) loc w = call.performAll p rest loc' w' := by
  induction as generalizing loc w with
  | nil =>
    obtain ⟨h₁, rfl⟩ := Prod.mk.inj h
    obtain rfl := Except.ok.inj h₁
    rfl
  | cons a as ih =>
    rw [List.cons_append, performAll]
    rw [performAll] at h
    match hp : call.perform p a loc w with
    | (.error e, v) => simp [hp] at h
    | (.ok l, v) =>
      simp only [hp] at h
      exact ih h

variable (call)

/-- The turns of one query: the ids that meet the object are appended, bindings stay. -/
theorem performAll_qidsQuery (rid : Nat) (ms : List (Fin n)) (loc : Local) (w : World n) :
    ∃ w', w'.binding = w.binding ∧ call.performAll p (ms.map (.qidsQuery rid)) loc w =
      (.ok { loc with
        smpranks := loc.smpranks ++ idsAmong w.binding (call.objCpuset rid) ms }, w') := by
  induction ms generalizing loc w with
  | nil =>
    refine ⟨w, rfl, ?_⟩
    have hnil : idsAmong w.binding (call.objCpuset rid) [] = [] := rfl
    rw [List.map_nil, hnil, List.append_nil]
    rfl
  | cons m ms ih =>
    obtain ⟨w', hb, hrun⟩ := ih
      { loc with smpranks :=
          if (w.binding m ∩ call.objCpuset rid).Nonempty then loc.smpranks ++ [(m : Int)]
          else loc.smpranks }
      { w with reads := w.reads ++ [(rid, m, w.binding m)] }
    refine ⟨w', hb, ?_⟩
    rw [List.map_cons, performAll_cons rfl, hrun, idsAmong_cons]
    by_cases h : (w.binding m ∩ call.objCpuset rid).Nonempty
    · simp [h]
    · simp [h]

/-- The query of a resource leaves its row and the length of it. -/
theorem performAll_qidsInType (rid : Nat) (loc : Local) (w : World n) {ids : List Int}
    (hids : ids = idsAmong w.binding (call.objCpuset rid) (List.finRange n)) :
    ∃ loc' w', w'.binding = w.binding ∧ loc'.rankIdsInRes = loc.rankIdsInRes.set rid ids ∧
      loc'.nranksInRes = loc.nranksInRes.set rid ids.length ∧
      call.performAll p (qidsInType n rid) loc w = (.ok loc', w') := by
  obtain ⟨w', hb, hrun⟩ := call.performAll_qidsQuery (p := p) rid (List.finRange n)
    { loc with
      nranksInRes := loc.nranksInRes.set rid 0
      rankIdsInRes := loc.rankIdsInRes.set rid []
      smpranks := [] } w
  refine ⟨{ loc with
    smpranks := ids
    nranksInRes := loc.nranksInRes.set rid ids.length
    rankIdsInRes := loc.rankIdsInRes.set rid ids }, w', hb, rfl, rfl, ?_⟩
  rw [qidsInType, List.cons_append, performAll_cons rfl, performAll_append hrun,
    performAll_cons rfl, hids]
  simp [performAll]

/-- The arrays after the queries of the first `k` resources. -/
structure Queried (b : Fin n → Cpuset) (k : Nat) (loc : Local) : Prop where
  counts_length : loc.nranksInRes.length = call.nres
  rows_length : loc.rankIdsInRes.length = call.nres
  row : ∀ rid < k, ∃ ids, ids = idsAmong b (call.objCpuset rid) (List.finRange n) ∧
    loc.rankIdsInRes[rid]? = some ids ∧ loc.nranksInRes[rid]? = some (ids.length : Int)

omit [NeZero n] in
theorem Queried.rows {b : Fin n → Cpuset} {loc : Local} (h : call.Queried b call.nres loc) :
    loc.rows = (call.node b).affinity.rankIds := by
  rw [node_affinity, Local.rows]
  apply List.ext_getElem?
  intro rid
  by_cases hrid : rid < call.nres
  · obtain ⟨ids, hids, hrow, hcount⟩ := h.row rid hrid
    simp [List.getElem?_zipWith, hrow, hcount, hids, hrid]
  · rw [List.getElem?_eq_none, List.getElem?_eq_none]
    · simpa using hrid
    · rw [List.length_zipWith, h.counts_length, h.rows_length]
      omega

theorem performAll_queries_upTo {k : Nat} (hk : k ≤ call.nres) {loc : Local} {w : World n}
    (hloc : call.Queried w.binding 0 loc) :
    ∃ loc' w', w'.binding = w.binding ∧ call.Queried w.binding k loc' ∧
      call.performAll p ((List.range k).flatMap (qidsInType n)) loc w = (.ok loc', w') := by
  induction k with
  | zero => exact ⟨loc, w, rfl, hloc, rfl⟩
  | succ k ih =>
    obtain ⟨loc', w', hb, hq, hrun⟩ := ih (by omega)
    obtain ⟨loc'', w'', hb', hrows, hcounts, hrun'⟩ :=
      call.performAll_qidsInType (p := p) k loc' w' rfl
    rw [hb] at hrows hcounts
    refine ⟨loc'', w'', hb'.trans hb, ⟨?_, ?_, ?_⟩, ?_⟩
    · rw [hcounts, List.length_set, hq.counts_length]
    · rw [hrows, List.length_set, hq.rows_length]
    · intro rid hrid
      rw [hrows, hcounts]
      by_cases heq : k = rid
      · subst heq
        have h₁ : k < loc'.nranksInRes.length := by rw [hq.counts_length]; omega
        have h₂ : k < loc'.rankIdsInRes.length := by rw [hq.rows_length]; omega
        exact ⟨_, rfl, List.getElem?_set_self h₂, List.getElem?_set_self h₁⟩
      · rw [List.getElem?_set_ne heq, List.getElem?_set_ne heq]
        exact hq.row rid (by omega)
    · rw [List.range_succ, List.flatMap_append, performAll_append hrun, List.flatMap_singleton]
      exact hrun'

/-- While bindings stay, the queries of the call leave the table of the node. -/
theorem performAll_queries (loc : Local) (w : World n) :
    ∃ loc' w', w'.binding = w.binding ∧
      loc'.rows = (call.node w.binding).affinity.rankIds ∧
      call.performAll p (.callocNranks :: .callocRankIds :: call.queries) loc w =
        (.ok loc', w') := by
  have hq : call.Queried w.binding 0 { loc with
      nranksInRes := List.replicate call.nres 0
      rankIdsInRes := List.replicate call.nres [] } :=
    ⟨List.length_replicate, List.length_replicate, fun rid h => absurd h (by omega)⟩
  obtain ⟨loc', w', hb, hq', hrun⟩ := call.performAll_queries_upTo (p := p) le_rfl hq
  refine ⟨loc', w', hb, hq'.rows, ?_⟩
  rw [performAll_cons rfl, performAll_cons rfl]
  exact hrun

end Call

end LibQuo.AutoDistrib
