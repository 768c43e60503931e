import LibQuo.Nodes.Discovery
import Mathlib.Algebra.BigOperators.Fin
import Mathlib.Algebra.BigOperators.Ring.Finset

/-!
What the processes find out is exact, for any distribution of any number of processes
over nodes, and whatever order `qsort` leaves the net numbers in.
-/

namespace LibQuo.Nodes
open CMem Collective

variable {P : Nat} (job : Job P)

/-- Everything the processes know of their nodes is right. -/
structure Exact (mpi : Fin P → QuoMpi P) : Prop where
  share : ∀ p q, (mpi p).smpcomm = (mpi q).smpcomm ↔ job.netNum p = job.netNum q
  mem_smpcomm : ∀ p q, q ∈ (mpi p).smpcomm ↔ job.netNum q = job.netNum p
  smprank : ∀ p, (mpi p).smprank =
    (Finset.univ.filter fun q => q < p ∧ job.netNum q = job.netNum p).card
  nsmpranks : ∀ p, (mpi p).nsmpranks =
    (Finset.univ.filter fun q => job.netNum q = job.netNum p).card
  id_range : ∀ p q, job.netNum q = job.netNum p →
    0 ≤ (mpi q).smprank ∧ (mpi q).smprank < (mpi p).nsmpranks
  id_unique : ∀ p i, 0 ≤ i → i < (mpi p).nsmpranks →
    ∃! q, job.netNum q = job.netNum p ∧ (mpi q).smprank = i
  nnodes : ∀ p, (mpi p).nnodes = (Finset.univ.image job.netNum).card
  nodeRanks_sorted : ∀ p, (mpi p).nodeRanks.Pairwise (· < ·)
  mem_nodeRanks : ∀ p r, r ∈ (mpi p).nodeRanks ↔
    ∃ q : Fin P, job.netNum q = job.netNum p ∧ r = (q : Nat)
  smprank2pid : ∀ p q, job.netNum q = job.netNum p →
    smprank2pid (mpi p) (mpi q).smprank = .ok (job.pid q)

namespace Job

def node (p : Fin P) : List (Fin P) :=
  (List.finRange P).filter fun q => job.netNum q = job.netNum p

/-- The net numbers as `qsort` leaves them. -/
def sorted : List UInt64 := job.qsort.run cmpUli ((List.finRange P).map job.netNum)

variable {job} {p q : Fin P}

theorem mem_node : q ∈ job.node p ↔ job.netNum q = job.netNum p := by simp [node]

theorem node_eq_iff : job.node p = job.node q ↔ job.netNum p = job.netNum q := by
  constructor
  · intro h
    rw [← mem_node, ← h, mem_node]
  · intro h
    simp only [node, h]

theorem pairwise_node (p : Fin P) : (job.node p).Pairwise (· < ·) :=
  (pairwise_finRange P).filter _

theorem commRank_commchan (p : Fin P) : commRank commchan p = (p : Nat) := by
  simp [commRank, commchan]

theorem mycolor_eq (p : Fin P) : job.mycolor p = .ok (Runs.before (job.netNum p) job.sorted) := by
  have hgather : allgather commchan (fun q => return job.netNum q) =
      (.ok ((List.finRange P).map job.netNum) : Except (Halt Int) _) :=
    allgather_ok fun _ _ => rfl
  have hlen : (initSetup p).nranks.toNat = ((List.finRange P).map job.netNum).length := by
    simp [initSetup, commSize, commchan]
  rw [mycolor, hgather, ok_bind, hlen]
  exact getMyColor_eq job.qsort (List.mem_map_of_mem (List.mem_finRange p))

/-- The colours tell the nodes apart. -/
theorem color_inj : Runs.before (job.netNum q) job.sorted = Runs.before (job.netNum p) job.sorted ↔
    job.netNum q = job.netNum p := by
  have hmem (r : Fin P) : job.netNum r ∈ job.sorted :=
    (job.qsort.perm _ _).mem_iff.mpr (List.mem_map_of_mem (List.mem_finRange r))
  exact ⟨Runs.before_inj (hmem q) (hmem p), fun h => by rw [h]⟩

theorem smpcomm_eq (p : Fin P) : job.smpcomm p = .ok (job.node p) := by
  have hcontrib (q : Fin P) (_ : q ∈ commchan) :
      (do return (((← job.mycolor q) : Int), (initSetup q).rank) : Except (Halt Int) (Int × Int)) =
        .ok ((Runs.before (job.netNum q) job.sorted : Nat), (q.val : Int)) := by
    rw [mycolor_eq, initSetup, commRank_commchan]
    rfl
  have hkeys : (commchan (P := P)).Pairwise fun q r => (q.val : Int) ≤ r.val := by
    refine (pairwise_finRange P).imp fun hab => ?_
    have hlt := Fin.lt_def.mp hab
    omega
  have hp : p ∈ commchan := by simp [commchan]
  rw [smpcomm, commSplit_ok (fun q => (Runs.before (job.netNum q) job.sorted : Nat))
    (fun q => (q.val : Int)) hp hcontrib hkeys, node]
  congr 1
  refine List.filter_congr fun q _ => ?_
  simp only [Int.natCast_inj, color_inj]

theorem idxOf_node (h : job.netNum q = job.netNum p) : (job.node p).idxOf q =
    (Finset.univ.filter fun r => r < q ∧ job.netNum r = job.netNum q).card := by
  rw [idxOf_eq_length_filter (pairwise_node p) (mem_node.mpr h), node, List.filter_filter,
    ← length_filter_finRange]
  congr 1
  refine List.filter_congr fun r _ => ?_
  simp [h]

/-- How many processes of its node are lower than `p`. -/
def lower (job : Job P) (p : Fin P) : Nat :=
  (Finset.univ.filter fun q => q < p ∧ job.netNum q = job.netNum p).card

theorem commRank_node (h : job.netNum q = job.netNum p) :
    commRank (job.node p) q = job.lower q := by
  rw [commRank, idxOf_node h, lower]

theorem lower_eq_zero : job.lower p = 0 ↔ ∀ q, job.netNum q = job.netNum p → p ≤ q := by
  rw [lower, Finset.card_eq_zero, Finset.filter_eq_empty_iff]
  constructor
  · intro h q hq
    by_contra hlt
    exact h (Finset.mem_univ q) ⟨not_le.mp hlt, hq⟩
  · rintro h q - ⟨hlt, hq⟩
    exact absurd (h q hq) (not_le.mpr hlt)

/-- The lowest processes stand for the nodes. -/
theorem card_lowest : (Finset.univ.filter fun p => job.lower p = 0).card =
    (Finset.univ.image job.netNum).card := by
  have hinj : Set.InjOn job.netNum (Finset.univ.filter fun p => job.lower p = 0) := by
    intro p hp q hq h
    have hp := lower_eq_zero.mp (Finset.mem_filter.mp hp).2
    have hq := lower_eq_zero.mp (Finset.mem_filter.mp hq).2
    exact le_antisymm (hp q h.symm) (hq p h)
  rw [← Finset.card_image_of_injOn hinj]
  congr 1
  ext v
  constructor
  · intro hv
    exact Finset.image_subset_image (Finset.filter_subset _ _) hv
  · intro hv
    obtain ⟨p, -, rfl⟩ := Finset.mem_image.mp hv
    obtain ⟨m, hm, hmin⟩ := Finset.exists_min_image
      (Finset.univ.filter fun q => job.netNum q = job.netNum p) id ⟨p, by simp⟩
    have hmp : job.netNum m = job.netNum p := (Finset.mem_filter.mp hm).2
    refine Finset.mem_image.mpr ⟨m, ?_, hmp⟩
    rw [Finset.mem_filter]
    refine ⟨Finset.mem_univ m, lower_eq_zero.mpr fun q hq => ?_⟩
    exact hmin q (Finset.mem_filter.mpr ⟨Finset.mem_univ q, hq.trans hmp⟩)

theorem nnodes_eq : allreduceSum commchan job.nnodeContrib =
    .ok ((Finset.univ.image job.netNum).card : Int) := by
  have hcontrib (p : Fin P) : job.nnodeContrib p = .ok (if job.lower p = 0 then 1 else 0) := by
    rw [nnodeContrib, smpcomm_eq, ok_bind, commRank_node rfl]
    simp only [Int.natCast_eq_zero]
    rfl
  rw [allreduceSum_ok fun p _ => hcontrib p, commchan, ← Fin.sum_univ_def, Finset.sum_boole,
    card_lowest]

/-- What a process knows in the end. -/
def found (job : Job P) (p : Fin P) : QuoMpi P where
  rank := (p : Nat)
  nranks := P
  smpcomm := job.node p
  smprank := job.lower p
  nsmpranks := (job.node p).length
  nnodes := (Finset.univ.image job.netNum).card
  pidSmprankMap := (job.node p).map fun q => ⟨(job.pid q).toInt64, job.lower q⟩
  nodeRanks := (job.node p).map fun q => (q.val : Int)

theorem smprankSetup_eq (p : Fin P) : job.smprankSetup p =
    .ok { job.found p with pidSmprankMap := [], nodeRanks := [] } := by
  rw [smprankSetup, smpcomm_eq, ok_bind, nnodes_eq, ok_bind, commRank_node rfl, initSetup,
    commRank_commchan]
  simp [found, commSize, commchan]
  rfl

theorem pidSmprankXchange_eq (p : Fin P) :
    job.pidSmprankXchange p = .ok { job.found p with nodeRanks := [] } := by
  have hgather : (allgather (job.node p) fun q => do
      return (⟨(job.pid q).toInt64, (← job.smprankSetup q).smprank⟩ : PidSmprank)) =
      .ok ((job.node p).map fun q => ⟨(job.pid q).toInt64, job.lower q⟩) :=
    allgather_ok fun q _ => by rw [smprankSetup_eq]; rfl
  simp only [pidSmprankXchange, smprankSetup_eq p, ok_bind, found] at hgather ⊢
  rw [hgather]
  rfl

theorem nodeRankXchange_eq (p : Fin P) : job.nodeRankXchange p = .ok (job.found p) := by
  have hgather : (allgather (job.node p) fun q => do
      return (← job.pidSmprankXchange q).rank) =
      .ok ((job.node p).map fun q => (q.val : Int)) :=
    allgather_ok fun q _ => by rw [pidSmprankXchange_eq]; rfl
  simp only [nodeRankXchange, pidSmprankXchange_eq p, ok_bind, found] at hgather ⊢
  rw [hgather]
  rfl

theorem lower_lt (h : job.netNum q = job.netNum p) : job.lower q < (job.node p).length := by
  have hmem : q ∈ job.node p := mem_node.mpr h
  have hidx := List.idxOf_lt_length_of_mem hmem
  rwa [idxOf_node h] at hidx

/-- The member at a place of the node has that place as its id. -/
theorem getElem_node_iff {i : Nat} :
    (job.node p)[i]? = some q ↔ job.netNum q = job.netNum p ∧ job.lower q = i := by
  constructor
  · intro h
    have hq : job.netNum q = job.netNum p := mem_node.mp (List.mem_of_getElem? h)
    refine ⟨hq, ?_⟩
    rw [lower, ← idxOf_node hq]
    obtain ⟨hi, rfl⟩ := List.getElem?_eq_some_iff.mp h
    exact List.Nodup.idxOf_getElem ((pairwise_node p).imp ne_of_lt) i hi
  · rintro ⟨hq, rfl⟩
    rw [lower, ← idxOf_node hq]
    exact List.getElem?_idxOf (mem_node.mpr hq)

theorem exact_found (job : Job P) : Exact job job.found where
  share _ _ := node_eq_iff
  mem_smpcomm _ _ := mem_node
  smprank _ := rfl
  nsmpranks p := by
    show ((job.node p).length : Int) = _
    rw [node, length_filter_finRange]
  id_range p q h := by
    have := lower_lt h
    exact ⟨Int.natCast_nonneg _, Int.ofNat_lt.mpr this⟩
  id_unique p i h₀ hi := by
    obtain ⟨k, rfl⟩ := Int.eq_ofNat_of_zero_le h₀
    have hk : k < (job.node p).length := Int.ofNat_lt.mp hi
    obtain ⟨hq, hlower⟩ := getElem_node_iff.mp (List.getElem?_eq_getElem hk)
    refine ⟨_, ⟨hq, congrArg _ hlower⟩, fun r ⟨hr, hrk⟩ => ?_⟩
    have hget := getElem_node_iff.mpr ⟨hr, Int.ofNat.inj hrk⟩
    rw [List.getElem?_eq_getElem hk] at hget
    exact (Option.some.inj hget).symm
  nnodes _ := rfl
  nodeRanks_sorted p := by
    show ((job.node p).map _).Pairwise _
    rw [List.pairwise_map]
    exact (pairwise_node p).imp fun hab => Int.ofNat_lt.mpr hab
  mem_nodeRanks p r := by
    show r ∈ (job.node p).map _ ↔ _
    simp only [List.mem_map, mem_node]
    exact exists_congr fun q => and_congr_right fun _ => eq_comm
  smprank2pid p q h := by
    have hget : (job.found p).pidSmprankMap[job.lower q]? =
        some ⟨(job.pid q).toInt64, job.lower q⟩ := by
      show ((job.node p).map _)[_]? = _
      rw [List.getElem?_map, getElem_node_iff.mpr ⟨h, rfl⟩]
      rfl
    have hload : (loadInt (job.found p).pidSmprankMap (job.lower q : Int) :
        Except (Halt Int) PidSmprank) = .ok ⟨(job.pid q).toInt64, job.lower q⟩ := by
      rw [loadInt, if_neg (by omega), Int.toNat_natCast, load_eq_ok, hget]
    show smprank2pid (job.found p) (job.lower q : Int) = _
    rw [smprank2pid, hload, ok_bind]
    simp
    rfl

end Job

/-- **Node discovery is exact.** -/
theorem nodeDiscovery_exact (job : Job P) :
    ∃ mpi : Fin P → QuoMpi P, (∀ p, job.nodeRankXchange p = .ok (mpi p)) ∧ Exact job mpi :=
  ⟨job.found, Job.nodeRankXchange_eq, job.exact_found⟩

end LibQuo.Nodes
