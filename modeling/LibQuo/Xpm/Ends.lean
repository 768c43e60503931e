import LibQuo.Lib.Completion
import LibQuo.Xpm.Tiles

/-!
How every run of an allocation ends that nothing is made to fail in: all have their segment, or,
if it would be empty, process 0 is gone and all others wait for it.
-/

namespace LibQuo.Xpm.Call
open CMem Sm Spmd Tiling

variable {n : Nat} [NeZero n] {call : Call n} {s : Group n Act Coll Local Files Packet (Halt Int)}

/-- If there is something to allocate, all have their segment in the end. -/
theorem NoFailure.allocates (hq : NoFailure call) (ht : call.total ≠ 0)
    (hr : Reachable call.protocol s) (hrest : AtRest call.protocol s) (p : Fin n) :
    (s.proc p).todo = [] ∧ call.Allocated p (s.proc p).loc.xpm := by
  have hnever : NeverStrands call.protocol :=
    (determined call).not_strandedBy call.colls_script fun p q => by
      rw [exits_script hq, exits_script hq, if_neg ht, if_neg ht]
  have hok : (s.proc p).failed = none := (sound call).failed_eq_none call.colls_script hr
    fun a _ => by simp [fails_of_noFailure hq, ht]
  have htodo : (s.proc p).todo = [] :=
    (hnever.returned call.colls_script hr hrest p).resolve_right (by simp [hok])
  exact ⟨htodo, allocated hr htodo⟩

/-- If there is nothing to allocate, process 0 fails and leaves all others behind. -/
theorem NoFailure.strands_all (hq : NoFailure call) (ht : call.total = 0)
    (hr : Reachable call.protocol s) (hrest : AtRest call.protocol s) :
    (s.proc 0).failed.isSome ∧ ∀ q, q ≠ 0 → StrandedBy call.protocol s 0 q := by
  have hL := call.colls_script
  have hexits (p : Fin n) : exits (call.publication.fails p) (call.protocol.script p) =
      if p = 0 then 3 else 4 := by rw [exits_script hq, if_pos ht]
  have hle : (s.posted 0).length ≤ 3 := by
    have hle := (determined call).posted_le hL hr 0
    rwa [hexits, if_pos rfl] at hle
  -- process 0 does not enter the first barrier, so that nobody leaves it
  have hbarrier (p : Fin n) : left s p ≤ 3 := by
    by_contra hlt
    have hmatched : Matched call.protocol s .smBarrier 3 := hr.ordered hL (not_le.mp hlt) rfl
    exact absurd (hmatched 0) (not_lt.mpr hle)
  have hothers {p : Fin n} (hp : p ≠ 0) : ¬Returned s p := fun hret => by
    have hlen := (determined call).posted_of_returned hL hr hret
    rw [hexits, if_neg hp] at hlen
    have hleft := hbarrier p
    rw [left, if_neg (hr.not_inside hL hret)] at hleft
    omega
  obtain ⟨p, hp, hleast⟩ := hr.exists_least hL hrest 0
  obtain rfl : p = 0 := by
    by_contra hne
    exact hothers hne hp
  have hfail : (s.proc 0).failed.isSome := by
    refine hp.resolve_left fun hdone => ?_
    have hall := hr.left_add_colls hL 0
    rw [hdone] at hall
    have hleft := hbarrier 0
    simp [colls, sequence] at hall
    omega
  exact ⟨hfail, fun q hq₀ => hr.stranded_of_least hL hrest hfail hleast (hothers hq₀)⟩

/-- Nothing is made to fail, and the size of the segment is an `off_t`, so that `ftruncate` takes
it. -/
structure Untroubled (call : Call n) : Prop extends NoFailure call where
  size : call.total < 2 ^ 63

/-- Every run takes only so many steps of processes. Where no process can go on any more, all
have returned with their segment; or, if the exact total is a multiple of the word size,
process 0 has failed and each other process is left waiting for it in the barrier. -/
theorem allocation_ends (hq : Untroubled call) {k : Nat} (hrun : Run call.protocol k s) :
    k ≤ ∑ p, (2 * (call.protocol.script p).length + 1) ∧
      (AtRest call.protocol s →
        if (exact call.sizes).sum % 2 ^ 64 = 0 then
          (s.proc 0).failed.isSome ∧ ∀ q, q ≠ 0 → StrandedBy call.protocol s 0 q
        else ∀ p, (s.proc p).todo = [] ∧ call.Allocated p (s.proc p).loc.xpm) := by
  have hr := hrun.reachable
  refine ⟨le_of_add_le_left hrun.steps_le, fun hrest => ?_⟩
  by_cases ht : call.total = 0
  · have htotal : (exact call.sizes).sum % 2 ^ 64 = 0 := ht
    rw [if_pos htotal]
    exact hq.toNoFailure.strands_all ht hr hrest
  · have htotal : ¬(exact call.sizes).sum % 2 ^ 64 = 0 := ht
    rw [if_neg htotal]
    exact fun p => hq.toNoFailure.allocates ht hr hrest p

theorem hollowCall_ends : ∃ k s, Run hollowCall.protocol k s ∧ AtRest hollowCall.protocol s ∧
    StrandedBy hollowCall.protocol s 0 1 := by
  obtain ⟨s, hsteps, hrest⟩ :=
    exists_atRest (P := hollowCall.protocol) (initial hollowCall.protocol)
  obtain ⟨k, hrun⟩ := Reachable.run (P := hollowCall.protocol) hsteps
  have hends := (allocation_ends ⟨hollowCall_noFailure, by decide⟩ hrun).2 hrest
  rw [if_pos (by decide)] at hends
  exact ⟨k, s, hrun, hrest, hends.2 1 (by decide)⟩

end LibQuo.Xpm.Call
