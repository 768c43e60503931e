import LibQuo.AutoDistrib.Held
import LibQuo.AutoDistrib.Outcome

/-!
All processes that decide do so on one consistent table, as long as the length of the packed
table is an `int`; and a header that is too long for one parts them.
-/

namespace LibQuo.AutoDistrib.Call
open CMem Sm Spmd

variable {n : Nat} [NeZero n] {call : Call n}
variable {s : Group n (Act n) Coll Local (World n) Msg (Halt Int)}

/-- A consistent snapshot: what process 0 has read of the bindings is what their
owners entered with; whoever opens the segment finds the one that process 0 has
created and sized; whoever reads a cell finds it written; and all decide on the
same counts and lists. -/
structure Consistent (call : Call n)
    (s : Group n (Act n) Coll Local (World n) Msg (Halt Int)) : Prop where
  fresh : ∀ rid r b, (rid, r, b) ∈ s.world.reads → s.world.entered r = some b
  opened : ∀ p, About s p (.sm .openRdwr) → ∃ path i,
    (s.proc p).loc.smseg.path = some path ∧ s.world.files.dir path = some i ∧
    (s.proc 0).loc.smseg.segBasep = some i ∧
    (s.world.files.store i).size = (s.proc 0).loc.smseg.segSize ∧
    (s.proc p).loc.smseg.segSize = (s.proc 0).loc.smseg.segSize
  header : ∀ p, About s p .readHeader → ∃ i, (s.proc p).loc.smseg.segBasep = some i ∧
    ∀ j < call.nres, (s.world.files.store i).cell j ≠ none
  row : ∀ p k, About s p (.readRow k) → ∃ i, (s.proc p).loc.smseg.segBasep = some i ∧
    ∀ j < ((s.proc p).loc.nranksInRes.getD k 0).toNat,
      (s.world.files.store i).cell ((s.proc p).loc.tabp + j) ≠ none
  agree : ∃ nranks rankIds, ∀ p, Decides s p →
    (s.proc p).loc.nranksInRes = nranks ∧ (s.proc p).loc.rankIdsInRes = rankIds
  decided : ∀ p, (s.proc p).todo = [] → (s.proc p).failed = none →
    call.decide p (s.proc p).loc = .ok (s.proc p).loc.outSelected

/-- **Consistent snapshot and agreement.** In every run in which no local call fails and the
packed table is not longer than an `int` can say, whatever the processes do to their bindings
before and after. -/
theorem consistent (hq : NoFailure call) (hr : Reachable call.protocol s)
    (hfit : call.Fits (call.rowsSeen s.world.reads)) : Consistent call s where
  fresh := hq.stays.fresh hr
  opened := opened hr
  header p h := by
    obtain ⟨-, ⟨i, hbase, hcell⟩, -, hstore⟩ := sees hr h (fun _ h => h) trivial (by simp)
    refine ⟨i, hbase, fun j hj => ?_⟩
    rw [hstore]
    exact hcell j (by rwa [hfit.headerInts])
  row p k h := by
    obtain ⟨-, ⟨i, hbase, hcell⟩, -, hstore⟩ := sees hr h (fun _ h => h) trivial (by simp)
    exact ⟨i, hbase, fun j hj => by rw [hstore]; exact hcell j hj⟩
  agree := by
    refine ⟨lengths (call.rowsSeen s.world.reads), call.rowsSeen s.world.reads, fun p h => ?_⟩
    have htable := table_of_decides hr h
    rwa [hfit.rowsAt p] at htable
  decided := decided hr

/-- A run of the two processes to its end. -/
theorem pairCall_consistent : ∃ s, Reachable pairCall.protocol s ∧
    (∀ p, (s.proc p).todo = []) ∧ Consistent pairCall s := by
  obtain ⟨s, hr, -, hdone⟩ := pairCall_neverFails.completes pairCall.colls_script
  exact ⟨s, hr, fun p => (hdone p).1, consistent pairCall_noFailure hr (pairCall_fits.fits _)⟩

/-- The two processes, both on the first of so many resources that the length of the header wraps
to zero; the others have no unit. -/
def wideCall : Call 2 :=
  { pairCall with
    nobjs := .ok 1073741824
    objCpuset := fun rid => [{0, 1}].getD rid ∅ }

theorem wideCall_noFailure : NoFailure wideCall := ⟨fun _ _ => rfl, ⟨_, rfl⟩, fun _ _ => rfl⟩

theorem wideCall_nres : wideCall.nres = 1073741824 := rfl

theorem wideCall_headerLen : wideCall.headerLen = 0 := by
  rw [headerLen, wideCall_nres]
  decide

theorem wideCall_headerInts : wideCall.headerInts = 0 := by
  rw [headerInts, wideCall_headerLen]
  decide

/-- Process 0 finds both processes on the first resource, and nobody on the others. -/
theorem wideCall_rowsHeld : ∃ rows, wideCall.rowsHeld wideCall.binding₀ = [0, 1] :: rows ∧
    rows.flatten = [] := by
  obtain ⟨m, hm⟩ := Nat.exists_eq_succ_of_ne_zero (by decide : 1073741824 ≠ 0)
  rw [rowsHeld, wideCall_nres, hm, List.range_succ_eq_map, List.map_cons, List.map_map]
  refine ⟨_, rfl, ?_⟩
  rw [List.flatten_eq_nil_iff]
  intro row hrow
  obtain ⟨rid, -, rfl⟩ := List.mem_map.mp hrow
  simp [idsAmong, wideCall]

theorem wideCall_size : wideCall.size (wideCall.rowsHeld wideCall.binding₀) = 8 := by
  obtain ⟨rows, hrows, hempty⟩ := wideCall_rowsHeld
  rw [size, segLen, wideCall_headerLen, hrows, List.flatten_cons, hempty]
  decide

theorem wideCall_lacks (a : Act 2) :
    wideCall.lacks (wideCall.rowsHeld wideCall.binding₀) a = false := by
  have hsize := wideCall_size
  obtain ⟨rows, hrows, hempty⟩ := wideCall_rowsHeld
  cases a with
  | sm b => cases b <;> simp [lacks, hsize, offLimit]
  | writeHeader =>
    simp only [lacks, hsize, wideCall_headerLen]
    decide
  | writeRow k =>
    have hpart := length_flatten_take_le (wideCall.rowsHeld wideCall.binding₀) (k + 1)
    rw [hrows, List.flatten_cons, hempty, ← hrows] at hpart
    simp only [lacks, hsize, wideCall_headerInts, decide_eq_false_iff_not]
    simp only [List.append_nil, List.length_cons, List.length_nil] at hpart
    omega
  | _ => rfl

/-- With these bindings nobody fails. -/
theorem wideCall_neverFails : NeverFails (wideCall.heldProtocol wideCall.binding₀) := by
  intro s p a rest loc hr hp
  have hr' := reachable_of_held hr
  refine wideCall_noFailure.exec_isOk (by decide) (by rw [wideCall_nres]; decide) hr' hp ?_
  rintro rfl
  have hplace : rootPlace a (left s 0) :=
    hr'.place wideCall.colls_script placed_root (by rw [hp])
  rw [lacks_held hr hplace, wideCall_lacks]

/-- Process 0 decides on a table with two entries, the other on an empty one, though nothing
has failed. -/
theorem wideCall_disagrees : NoFailure wideCall ∧ ∃ s, Reachable wideCall.protocol s ∧
    (∀ p, Decides s p) ∧ ¬Consistent wideCall s := by
  obtain ⟨s, hr, -, hdone⟩ := wideCall_neverFails.completes colls_heldProtocol
  have hr' := reachable_of_held hr
  have hdecides (p : Fin 2) : Decides s p := .inr (hdone p)
  refine ⟨wideCall_noFailure, s, hr', hdecides, fun hcons => ?_⟩
  obtain ⟨nranks, rankIds, hagree⟩ := hcons.agree
  have hroot := (table_of_decides hr' (hdecides 0)).2
  have hpeer := (table_of_decides hr' (hdecides 1)).2
  rw [(hagree 0 (hdecides 0)).2, rowsAt, if_pos rfl] at hroot
  rw [(hagree 1 (hdecides 1)).2, hroot, rowsAt, if_neg (by decide), rowsRead] at hpeer
  have hseen := rowsSeen_held hr (by rw [left_of_decides hr' (hdecides 0)]; decide)
  obtain ⟨rows, hrows, -⟩ := wideCall_rowsHeld
  rw [hseen, hrows, wideCall_headerInts] at hpeer
  have hfirst := congrArg (fun table => table[0]?) hpeer
  simp [getElem?_cut] at hfirst

end LibQuo.AutoDistrib.Call
