import LibQuo.AutoDistrib.NoStranding
import LibQuo.Lib.Completion

/-!
After which local failures a call still comes to its end, in every run: nobody may wait in a
barrier that another process never enters.
-/

namespace LibQuo.AutoDistrib.Call
open CMem Sm Spmd

variable {n : Nat} [NeZero n] (call : Call n)

/-- The bound is not positive, or there is no resource, or no path name; or nobody fails up to
the last barrier; or everybody gives up before the barrier behind which the table is read. -/
def Ends : Prop :=
  call.maxQids ≤ 0 ∨ call.nres = 0 ∨ call.segName.isOk = false ∨
    (∀ p, call.failsResult p = false ∧ call.failsTable p = false ∧ call.failsSegment p = false) ∨
    ∀ p, call.failsResult p = true ∨ call.failsTable p = true ∨
      (p = 0 ∧ call.failsSegment p = true)

instance : Decidable call.Ends := inferInstanceAs (Decidable (_ ∨ _ ∨ _ ∨ _ ∨ _))

/-- How many collectives a process enters if it is not kept from it. -/
def exit (p : Fin n) : Nat := exits (call.fails p) (call.protocol.script p)

variable {call} {s : Group n (Act n) Coll Local (World n) Msg (Halt Int)} {p q : Fin n}

theorem exitAt_le_four : ∀ {root result table segment : Bool},
    exitAt root result table segment ≤ 4 ↔ result ∨ table ∨ (root ∧ segment) := by decide

theorem two_le_exitAt : ∀ {root result table segment : Bool},
    2 ≤ exitAt root result table segment := by decide

theorem exitAt_le_six : ∀ {root result table segment : Bool},
    exitAt root result table segment ≤ 6 := by decide

theorem exitAt_root : ∀ {table segment : Bool},
    exitAt true false table segment ≠ 5 ∧ 3 ≤ exitAt true false table segment := by decide

theorem exit_eq (hbegins : call.Begins) (p : Fin n) :
    call.exit p =
      exitAt (p = 0) (call.failsResult p) (call.failsTable p) (call.failsSegment p) := by
  rw [exit, hbegins.exits_eq]

theorem exit_root (hbegins : call.Begins) :
    call.exit 0 ≠ 5 ∧ 3 ≤ call.exit 0 := by
  rw [exit_eq hbegins, failsResult_root]
  simpa using exitAt_root

/-- In terms of the collectives that are entered. -/
theorem ends_iff_exit :
    call.Ends ↔ (call.Begins → (∀ p, call.exit p = 6) ∨ ∀ p, call.exit p ≤ 4) := by
  by_cases hbegins : call.Begins
  · simp only [Ends, hbegins.max, hbegins.res, hbegins.name, false_or, forall_const, hbegins,
      exit_eq hbegins, exitAt_eq_six, exitAt_le_four, decide_eq_true_eq, Bool.true_eq_false]
  · refine iff_of_true ?_ fun h => absurd h hbegins
    by_contra hends
    simp only [Ends, not_or] at hends
    exact hbegins ⟨hends.1, hends.2.1, hends.2.2.1⟩

/-- Whoever gets through a barrier does not leave anybody in front of it. -/
theorem exit_of_returned (hroom : call.Roomy) (hr : Reachable call.protocol s)
    (hall : ∀ p, Returned s p) {k : Nat} (hk : sequence[k]? = some .smBarrier)
    (hp : k < call.exit p) (q : Fin n) : k < call.exit q := by
  have hposted := fun p => hroom.determined.posted_of_returned call.colls_script hr (hall p)
  have hleft : k < left s p := by
    rw [left, if_neg (hr.not_inside call.colls_script (hall p)), hposted p]
    exact hp
  have hmatched : Matched call.protocol s .smBarrier k := hr.ordered call.colls_script hleft hk
  exact lt_of_lt_of_eq (hmatched q) (hposted q)

theorem ends_of_returned (hroom : call.Roomy) (hr : Reachable call.protocol s)
    (hall : ∀ p, Returned s p) : call.Ends := by
  refine ends_iff_exit.mpr fun hbegins => ?_
  by_cases hlong : ∃ p, 4 < call.exit p
  · -- process 0 gets through the last barrier, and so do all
    obtain ⟨p, hp⟩ := hlong
    have hroot : 4 < call.exit 0 := exit_of_returned hroom hr hall rfl hp 0
    have hsix : 5 < call.exit 0 := by
      have hne := (exit_root hbegins).1
      omega
    refine .inl fun q => ?_
    have hq : 5 < call.exit q := exit_of_returned hroom hr hall rfl hsix q
    have hle : call.exit q ≤ 6 := by
      rw [exit_eq hbegins]
      exact exitAt_le_six
    omega
  · exact .inr fun p => not_lt.mp fun hp => hlong ⟨p, hp⟩

/-- Up to the broadcast of the length, a collective waits for process 0 alone, once all have
entered the first barrier. -/
theorem matched_early {c : Coll} {k : Nat} (hk : k ≤ 3) (hc : sequence[k]? = some c)
    (hfirst : ∀ q, 0 < (s.posted q).length) (hroot : k < (s.posted 0).length) :
    Matched call.protocol s c k := by
  obtain rfl | rfl | rfl | rfl : k = 0 ∨ k = 1 ∨ k = 2 ∨ k = 3 := by omega
  all_goals
    obtain rfl := Option.some.inj hc
  · exact hfirst
  · exact hroot
  · exact hroot
  · exact hroot

theorem returned_of_early (hroom : call.Roomy) (hbegins : call.Begins)
    (hearly : ∀ p, call.exit p ≤ 4) (hr : Reachable call.protocol s)
    (hrest : AtRest call.protocol s) (p : Fin n) : Returned s p := by
  have hL := call.colls_script
  have hle (p : Fin n) : (s.posted p).length ≤ call.exit p := hroom.determined.posted_le hL hr p
  have hposted {p : Fin n} (hp : Returned s p) : (s.posted p).length = call.exit p :=
    hroom.determined.posted_of_returned hL hr hp
  have hfirst (q : Fin n) : 0 < (s.posted q).length := by
    by_cases hq : Returned s q
    · rw [hposted hq, exit_eq hbegins]
      exact lt_of_lt_of_le (by decide) two_le_exitAt
    · have hlen := (hr.stuck hL (hrest q) hq).1
      omega
  have hroot : Returned s 0 := by
    by_contra h₀
    obtain ⟨hlen, c, hc, hmatched⟩ := hr.stuck hL (hrest 0) h₀
    have hexit := (hle 0).trans (hearly 0)
    exact hmatched (matched_early (by omega) hc hfirst (by omega))
  by_contra hp
  obtain ⟨hlen, c, hc, hmatched⟩ := hr.stuck hL (hrest p) hp
  have hne : p ≠ 0 := fun h => hp (h ▸ hroot)
  have hexit : call.exit p ≠ 4 := by
    rw [exit_eq hbegins, decide_eq_false hne]
    exact exitAt_peer
  have hexit' := hle p
  have hearly' := hearly p
  have hroot' := (exit_root hbegins).2
  have hposted₀ := hposted hroot
  exact hmatched (matched_early (by omega) hc hfirst (by omega))

theorem returned_of_ends (hroom : call.Roomy) (hends : call.Ends) (hr : Reachable call.protocol s)
    (hrest : AtRest call.protocol s) (p : Fin n) : Returned s p := by
  have heven (h : ∀ p q, call.exit p = call.exit q) : Returned s p :=
    NeverStrands.returned call.colls_script
      (hroom.determined.not_strandedBy call.colls_script h) hr hrest p
  by_cases hbegins : call.Begins
  · rcases ends_iff_exit.mp hends hbegins with hsix | hearly
    · exact heven fun p q => by rw [hsix p, hsix q]
    · exact returned_of_early hroom hbegins hearly hr hrest p
  · exact heven (exits_of_not_begins hbegins)

/-- Every run takes only so many steps of processes; and if the length of the segment does not
wrap, then when no process can go on any more, all have returned exactly if the failures are
such that the call ends, whatever the order of steps was. -/
theorem distribution_ends_iff (hroom : call.Roomy) {k : Nat} (hrun : Run call.protocol k s) :
    k ≤ ∑ p, (2 * (call.protocol.script p).length + 1) ∧
      (AtRest call.protocol s → ((∀ p, Returned s p) ↔ call.Ends)) :=
  ⟨le_of_add_le_left hrun.steps_le, fun hrest =>
    ⟨ends_of_returned hroom hrun.reachable, fun hends p =>
      returned_of_ends hroom hends hrun.reachable hrest p⟩⟩

/-- What `unqueriedCall` fails in is never made up for. -/
theorem unqueriedCall_hangs : ∃ k s, Run unqueriedCall.protocol k s ∧
    AtRest unqueriedCall.protocol s ∧ ¬∀ p, Returned s p := by
  obtain ⟨s, hsteps, hrest⟩ :=
    exists_atRest (P := unqueriedCall.protocol) (initial unqueriedCall.protocol)
  obtain ⟨k, hrun⟩ := Reachable.run (P := unqueriedCall.protocol) hsteps
  refine ⟨k, s, hrun, hrest, fun hall => ?_⟩
  have hends := ((distribution_ends_iff (by decide) hrun).2 hrest).mp hall
  revert hends
  decide

end LibQuo.AutoDistrib.Call
