import Mathlib.Algebra.Ring.Nat
import Mathlib.Data.List.TFAE
import Mathlib.Tactic.TFAE
import LibQuo.Lib.ComparisonSort
import LibQuo.Nodes.Color

/-!
When the colours of the nodes are those of the numeric order of their net numbers.
`cmp_uli` cuts the difference of two `unsigned long` to an `int`, so that what it says of
two numbers depends on their distance modulo `2 ^ 32`.
-/

namespace LibQuo.Nodes
open CMem ComparisonSort

/-- A correct comparison sort: it permutes the array, and sorts it if the comparator is
consistent on its elements. -/
structure CorrectSort extends Qsort where
  sorts : ∀ (cmp : UInt64 → UInt64 → Int32) (xs : List UInt64),
    Consistent (fun a b => (cmp a b).toInt) xs →
      (run cmp xs).Pairwise fun a b => (cmp a b).toInt ≤ 0

/-- The sign that `qsort` goes by. -/
def uliSign (a b : UInt64) : Int := (cmpUli a b).toInt

def ascending (netNums : List UInt64) : List UInt64 := netNums.mergeSort fun a b => a ≤ b

/-- The distinct net numbers below `my`. -/
def below (netNums : List UInt64) (my : UInt64) : Finset UInt64 :=
  netNums.toFinset.filter fun num => num < my

/-- Every correct sort leaves the ascending array, in whatever order the numbers arrive. -/
def SortsAscending (netNums : List UInt64) : Prop :=
  ∀ (qsort : CorrectSort) (arrived : List UInt64), arrived.Perm netNums →
    qsort.run cmpUli arrived = ascending netNums

/-- With every correct sort, and in whatever order the numbers arrive, the colour of a node
is the number of distinct net numbers below its own. -/
def ColorsByRank (netNums : List UInt64) : Prop :=
  ∀ (qsort : CorrectSort) (arrived : List UInt64), arrived.Perm netNums → ∀ my ∈ netNums,
    getMyColor qsort.toQsort arrived arrived.length my = .ok (below netNums my).card

/-- The colours of an array of net numbers do not depend on the sort, nor on the order in
which the numbers arrive. -/
structure OrderFree (netNums : List UInt64) : Prop where
  agrees : Agrees uliSign UInt64.toNat netNums
  sorts : SortsAscending netNums
  colors : ColorsByRank netNums

/-- Modulo `2 ^ 32`, a larger number lies ahead of a smaller one by less than half the circle. -/
def Spread (netNums : List UInt64) : Prop :=
  ∀ a ∈ netNums, ∀ b ∈ netNums, b < a →
    0 < (a.toNat - b.toNat) % 2 ^ 32 ∧ (a.toNat - b.toNat) % 2 ^ 32 < 2 ^ 31

theorem uliSign_eq (a b : UInt64) :
    uliSign a b = ((a.toNat : Int) - b.toNat).bmod (2 ^ 32) := by
  have hsub : (a - b).toUInt32.toNat = (2 ^ 64 - b.toNat + a.toNat) % 2 ^ 64 % 2 ^ 32 := by
    rw [UInt64.toNat_toUInt32, UInt64.toNat_sub]
  have hint : uliSign a b = ((a - b).toUInt32.toNat : Int).bmod (2 ^ 32) :=
    BitVec.toInt_eq_toNat_bmod _
  have hb := b.toNat_lt
  rw [hint, hsub]
  simp only [Int.bmod]
  omega

theorem uliSign_self (a : UInt64) : uliSign a a = 0 := by
  rw [uliSign_eq, Int.sub_self]
  rfl

theorem uliSign_pos_iff {a b : UInt64} (h : b.toNat < a.toNat) : 0 < uliSign a b ↔
    0 < (a.toNat - b.toNat) % 2 ^ 32 ∧ (a.toNat - b.toNat) % 2 ^ 32 < 2 ^ 31 := by
  rw [uliSign_eq]
  simp only [Int.bmod]
  omega

theorem uliSign_neg {a b : UInt64} (hpos : 0 < uliSign a b) : uliSign b a < 0 := by
  rw [uliSign_eq] at hpos ⊢
  simp only [Int.bmod] at hpos ⊢
  omega

theorem agrees_of_spread {netNums : List UInt64} (h : Spread netNums) :
    Agrees uliSign UInt64.toNat netNums := by
  intro a ha b hb
  rcases Nat.lt_trichotomy a.toNat b.toNat with hlt | heq | hgt
  · have hpos := (uliSign_pos_iff hlt).mpr (h b hb a ha (UInt64.lt_iff_toNat_lt.mpr hlt))
    have hneg := uliSign_neg hpos
    omega
  · rw [UInt64.toNat_inj.mp heq, uliSign_self]
    omega
  · have hpos := (uliSign_pos_iff hgt).mpr (h a ha b hb (UInt64.lt_iff_toNat_lt.mpr hgt))
    omega

theorem ascending_pairwise (netNums : List UInt64) :
    (ascending netNums).Pairwise fun a b => a ≤ b := by
  apply (pairwise_mergeSort_of_mem _ _).imp
  · intro a b hab
    exact of_decide_eq_true hab
  · intro a _ b _ c _ hab hbc
    exact decide_eq_true (UInt64.le_trans (of_decide_eq_true hab) (of_decide_eq_true hbc))
  · intro a _ b _
    rw [Bool.or_eq_true, decide_eq_true_iff, decide_eq_true_iff]
    exact UInt64.le_total a b

theorem ascending_perm (netNums : List UInt64) : (ascending netNums).Perm netNums :=
  List.mergeSort_perm _ _

theorem sortsAscending_of_agrees {netNums : List UInt64}
    (h : Agrees uliSign UInt64.toNat netNums) : SortsAscending netNums := by
  intro qsort arrived hperm
  have hleft := (qsort.perm cmpUli arrived).trans hperm
  have harrived : Agrees uliSign UInt64.toNat arrived := fun a ha b hb =>
    h a (hperm.mem_iff.mp ha) b (hperm.mem_iff.mp hb)
  have hsorted : (qsort.run cmpUli arrived).Pairwise fun a b => a ≤ b := by
    apply (qsort.sorts cmpUli arrived (consistent_of_agrees harrived)).imp_of_mem
    intro a b ha hb hab
    exact UInt64.le_iff_toNat_le.mpr
      ((h.nonpos_iff (hleft.mem_iff.mp ha) (hleft.mem_iff.mp hb)).mp hab)
  exact List.Perm.eq_of_pairwise (fun a b _ _ => UInt64.le_antisymm) hsorted
    (ascending_pairwise netNums) (hleft.trans (ascending_perm netNums).symm)

theorem colorsByRank_of_sortsAscending {netNums : List UInt64} (h : SortsAscending netNums) :
    ColorsByRank netNums := by
  intro qsort arrived hperm my hmy
  rw [getMyColor_eq qsort.toQsort (hperm.mem_iff.mpr hmy), h qsort arrived hperm,
    Runs.before_eq_card (ascending_pairwise netNums) (fun a _ b _ => UInt64.le_antisymm)
      ((ascending_perm netNums).mem_iff.mpr hmy),
    List.toFinset_eq_of_perm _ _ (ascending_perm netNums), below]
  congr 2
  apply Finset.filter_congr
  intro num _
  rw [and_comm, UInt64.lt_iff_le_and_ne]

/-- A correct sort that leaves whatever the comparator does not rule out. -/
def contrarySort : CorrectSort where
  run cmp xs := xs.mergeSort (contrary (fun a b => (cmp a b).toInt) UInt64.toNat xs)
  perm _ _ := List.mergeSort_perm _ _
  sorts _ _ h := contrary_sorts h

/-- The contrary sort gives a larger number the lower colour if `cmp_uli` lets it. -/
theorem spread_of_colorsByRank {netNums : List UInt64} (h : ColorsByRank netNums) :
    Spread netNums := by
  intro a ha b hb hlt
  have hlt' := UInt64.lt_iff_toNat_lt.mp hlt
  rw [← uliSign_pos_iff hlt']
  by_contra hpos
  have hperm := contrarySort.perm cmpUli netNums
  have hbefore := Runs.before_lt_before (@contrary_pairwise _ uliSign UInt64.toNat netNums)
    (fun x hx y hy => contrary_antisymm (fun _ _ => UInt64.toNat_inj.mp)
      (hperm.mem_iff.mp hx) (hperm.mem_iff.mp hy))
    (fun x hx y hy z hz => contrary_trans (hperm.mem_iff.mp hx) (hperm.mem_iff.mp hy)
      (hperm.mem_iff.mp hz))
    (hperm.mem_iff.mpr ha) (hperm.mem_iff.mpr hb) (fun hab => by simp [hab] at hlt)
    (contrary_of_nonpos hlt' (Int.not_lt.mp hpos))
  have hcolor (my : UInt64) (hmy : my ∈ netNums) :
      Runs.before my (contrarySort.run cmpUli netNums) = (below netNums my).card :=
    Except.ok.inj ((getMyColor_eq contrarySort.toQsort hmy).symm.trans
      (h contrarySort netNums (List.Perm.refl _) my hmy))
  have hrank : (below netNums b).card ≤ (below netNums a).card := by
    apply Finset.card_le_card
    intro num hnum
    rw [below, Finset.mem_filter] at hnum ⊢
    exact ⟨hnum.1, UInt64.lt_trans hnum.2 hlt⟩
  rw [← hcolor a ha, ← hcolor b hb] at hrank
  exact absurd hbefore (Nat.not_lt.mpr hrank)

/-- The comparator, the sorted array and the colours go wrong together. -/
theorem order_tfae (netNums : List UInt64) : List.TFAE [Spread netNums,
    Agrees uliSign UInt64.toNat netNums, SortsAscending netNums, ColorsByRank netNums] := by
  tfae_have 1 → 2 := agrees_of_spread
  tfae_have 2 → 3 := sortsAscending_of_agrees
  tfae_have 3 → 4 := colorsByRank_of_sortsAscending
  tfae_have 4 → 1 := spread_of_colorsByRank
  tfae_finish

/-- The colours are free of the order exactly if the net numbers are spread. -/
theorem orderFree_iff (netNums : List UInt64) : OrderFree netNums ↔ Spread netNums := by
  have htfae := order_tfae netNums
  constructor
  · intro h
    exact (htfae.out 0 1).mpr h.agrees
  · intro h
    exact ⟨(htfae.out 0 1).mp h, (htfae.out 0 2).mp h, (htfae.out 0 3).mp h⟩

/-- The net numbers of 10.0.0.1, 10.0.0.97 and 10.0.0.193 on a little-endian machine. -/
def circleNums : List UInt64 := [0x0100000A, 0x6100000A, 0xC100000A]

/-- Each of the three is taken to lie behind the one before it, the first one behind the
last: with that, a correct sort may leave anything. -/
theorem circleNums_notOrderFree :
    (0 < uliSign 0x6100000A 0x0100000A ∧ 0 < uliSign 0xC100000A 0x6100000A ∧
      0 < uliSign 0x0100000A 0xC100000A) ∧ ¬Consistent uliSign circleNums ∧
        ¬SortsAscending circleNums ∧ ¬ColorsByRank circleNums ∧ ¬OrderFree circleNums := by
  have hspread : ¬Spread circleNums := by
    intro h
    have hfar := h 0xC100000A (by decide) 0x0100000A (by decide) (by decide)
    exact absurd hfar (by decide)
  have htfae := order_tfae circleNums
  refine ⟨by decide, by decide, fun h => hspread ((htfae.out 0 2).mpr h),
    fun h => hspread ((htfae.out 0 3).mpr h), fun h => hspread ((htfae.out 0 1).mpr h.agrees)⟩

end LibQuo.Nodes
