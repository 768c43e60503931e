import Mathlib.Algebra.Ring.Int.Defs
import Mathlib.Data.List.Basic
import Mathlib.Data.Fintype.Card
import Mathlib.Data.List.FinRange
import Mathlib.Order.Basic

/-!
Collectives of a message-passing library as functions of what the members contribute.
A communicator is the list of its members in the order of their ranks. A collective
has a result once every member has a contribution.
-/

namespace Collective

variable {α β ε : Type}

/-- What everyone has contributed, in rank order. -/
def allgather (comm : List α) (contrib : α → Except ε β) : Except ε (List β) := comm.mapM contrib

/-- The sum of the contributions. -/
def allreduceSum (comm : List α) (contrib : α → Except ε Int) : Except ε Int := do
  return (← comm.mapM contrib).sum

/-- The communicator that `p` gets: the members of its colour in the order of their keys,
with ties in the order of their ranks. A contribution is a colour and a key. -/
def commSplit (comm : List α) (contrib : α → Except ε (Int × Int)) (p : α) :
    Except ε (List α) := do
  let (color, _) ← contrib p
  let contribs ← comm.mapM fun q => do return (q, ← contrib q)
  let group := contribs.filter fun c => c.2.1 = color
  return (group.mergeSort fun c d => c.2.2 ≤ d.2.2).map Prod.fst

def commSize (comm : List α) : Int := comm.length

def commRank [DecidableEq α] (comm : List α) (p : α) : Int := comm.idxOf p

variable {comm : List α}

theorem mapM_ok {f : α → Except ε β} {g : α → β} (h : ∀ a ∈ comm, f a = .ok (g a)) :
    comm.mapM f = .ok (comm.map g) := by
  induction comm with
  | nil => rfl
  | cons a t ih =>
    rw [List.mapM_cons, h a List.mem_cons_self, ih fun b hb => h b (List.mem_cons_of_mem _ hb)]
    rfl

theorem allgather_ok {contrib : α → Except ε β} {g : α → β}
    (h : ∀ a ∈ comm, contrib a = .ok (g a)) : allgather comm contrib = .ok (comm.map g) :=
  mapM_ok h

theorem allreduceSum_ok {contrib : α → Except ε Int} {g : α → Int}
    (h : ∀ a ∈ comm, contrib a = .ok (g a)) :
    allreduceSum comm contrib = .ok (comm.map g).sum := by
  rw [allreduceSum, mapM_ok h]
  rfl

/-- If the keys follow the ranks, a split keeps the order. -/
theorem commSplit_ok {contrib : α → Except ε (Int × Int)} (color key : α → Int) {p : α}
    (hp : p ∈ comm) (h : ∀ a ∈ comm, contrib a = .ok (color a, key a))
    (hkey : comm.Pairwise fun a b => key a ≤ key b) :
    commSplit comm contrib p = .ok (comm.filter fun a => color a = color p) := by
  have hall : (comm.mapM fun q => do return (q, ← contrib q)) =
      .ok (comm.map fun q => (q, color q, key q)) := mapM_ok fun a ha => by rw [h a ha]; rfl
  have hgroup : ((comm.map fun q => (q, color q, key q)).filter fun c => c.2.1 = color p) =
      (comm.filter fun a => color a = color p).map fun q => (q, color q, key q) := by
    rw [List.filter_map]
    rfl
  have hsorted : ((comm.filter fun a => color a = color p).map
      fun q => (q, color q, key q)).Pairwise
      fun c d => decide (c.2.2 ≤ d.2.2) = true := by
    rw [List.pairwise_map]
    exact (hkey.filter _).imp fun hab => by simpa using hab
  rw [commSplit, h p hp, hall]
  show Except.ok (List.map Prod.fst (List.mergeSort _ _)) = _
  rw [hgroup, List.mergeSort_of_pairwise hsorted, List.map_map]
  simp [Function.comp_def]

/-- In a sorted communicator the rank is the number of lower members. -/
theorem idxOf_eq_length_filter [LinearOrder α] {p : α} (hsorted : comm.Pairwise (· < ·))
    (hp : p ∈ comm) : comm.idxOf p = (comm.filter (· < p)).length := by
  induction comm with
  | nil => simp at hp
  | cons a t ih =>
    obtain ⟨hlt, ht⟩ := List.pairwise_cons.mp hsorted
    by_cases hap : a = p
    · subst hap
      have hnone : t.filter (· < a) = [] := by
        rw [List.filter_eq_nil_iff]
        intro b hb
        simpa using (hlt b hb).le
      simp [hnone]
    · have hpt : p ∈ t := (List.mem_cons.mp hp).resolve_left (Ne.symm hap)
      rw [List.idxOf_cons_ne t hap, ih ht hpt, List.filter_cons_of_pos (by simpa using hlt p hpt)]
      rfl

/-! ## All processes of a job -/

variable {P : Nat}

theorem pairwise_finRange (P : Nat) : (List.finRange P).Pairwise (· < ·) := by
  simpa using List.pairwise_lt_finRange P

theorem length_filter_finRange (q : Fin P → Prop) [DecidablePred q] :
    ((List.finRange P).filter fun p => q p).length = (Finset.univ.filter q).card := by
  rw [Fin.univ_def]
  rfl

end Collective
