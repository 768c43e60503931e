import LibQuo.Lib.Completion
import LibQuo.Links
import LibQuo.Xpm.SameEnd

/-!
What an allocation leaves on the file system of the node: its segment has a path only for as
long as the others need to attach to it.
-/

namespace LibQuo.Xpm.Call
open CMem Sm Spmd

variable {n : Nat} [NeZero n] {call : Call n}
variable {p : Fin n} {a : Act} {loc loc' : Local} {fs fs' : Files}

theorem perform_of_exec (h : call.protocol.exec p a loc fs = (.ok loc', fs')) :
    call.perform p a loc fs = (.ok loc', fs') := by
  simp only [protocol] at h
  split at h
  · simp at h
  · exact h

theorem exec_dir_error {e : Halt Int} (h : call.protocol.exec p a loc fs = (.error e, fs')) :
    fs'.dir = fs.dir := by
  simp only [protocol] at h
  split at h
  · rw [← (Prod.mk.inj h).2]
  · rw [call.perform_error h]

/-- A step on the segment, as a step of the call. -/
theorem perform_sm {b : Sm.Act} (h : call.perform p (.sm b) loc fs = (.ok loc', fs')) :
    ∃ h', Sm.exec call.keeps loc.xchg.result loc.xpm.globalSize.toNat b loc.xpm.qsmSegment fs =
        (.ok h', fs') ∧ loc' = { loc with xpm := { loc.xpm with qsmSegment := h' } } := by
  obtain ⟨hr, hfs⟩ := Prod.mk.inj h
  cases hx : Sm.exec call.keeps loc.xchg.result loc.xpm.globalSize.toNat b
    loc.xpm.qsmSegment fs with
  | mk r fs₁ =>
    rw [hx] at hr hfs
    cases r with
    | error e => simp [Except.map] at hr
    | ok h' => exact ⟨h', Prod.ext rfl hfs, (Except.ok.inj hr).symm⟩

/-- The variables of the call know no other path than the one that was made up. -/
def Own (call : Call n) (loc : Local) : Prop := Named call.segName loc.xchg loc.xpm.qsmSegment

theorem own_perform (hown : call.Own loc) (h : call.perform 0 a loc fs = (.ok loc', fs')) :
    call.Own loc' := by
  cases a with
  | xchg b =>
    simp only [perform, if_pos] at h
    cases hx : UniqPath.execRoot call.segName b loc.xchg with
    | error e =>
      rw [hx] at h
      simp [Except.map] at h
    | ok x =>
      rw [hx] at h
      obtain ⟨rfl, -⟩ : { loc with xchg := x } = loc' ∧ fs = fs' := by
        simpa [Except.map] using h
      exact hown.execRoot hx
  | sm b =>
    obtain ⟨h', hx, rfl⟩ := perform_sm h
    exact hown.exec hx
  | copyBack =>
    simp only [perform] at h
    obtain ⟨hr, -⟩ := Prod.mk.inj h
    cases hsum : rangeSum { loc.xpm with localSizes := loc.lsizes.map Int64.toUInt64 } 0
        ((n : Int) - 1) with
    | error e =>
      rw [hsum] at hr
      simp [Except.map] at hr
    | ok v =>
      rw [hsum] at hr
      obtain rfl := Except.ok.inj hr
      exact hown
  | callocXpm | smConstruct =>
    obtain ⟨rfl, -⟩ := by simpa [perform] using h
    exact ⟨hown.result, by simp [Local.fresh, Handle.fresh]⟩
  | _ =>
    obtain ⟨rfl, -⟩ := by simpa [perform] using h
    exact hown

/-- Process 0 opens the segment once, and takes its path away behind that. -/
theorem opened_root {rest : List (Instr Act Coll)}
    (h : .act (.sm .openCreate) :: rest <:+ rootScript) :
    .act (.sm .openCreate) ∉ rest ∧ .act (.sm .unlink) ∈ rest := by
  have hroot : ∀ t ∈ rootScript.tails, t.head? = some (.act (.sm .openCreate)) →
      .act (.sm .openCreate) ∉ t.tail ∧ .act (.sm .unlink) ∈ t.tail := by decide +kernel
  exact hroot _ ((List.mem_tails _ _).mpr h) rfl

theorem unlinked_root {rest : List (Instr Act Coll)}
    (h : .act (.sm .unlink) :: rest <:+ rootScript) : .act (.sm .unlink) ∉ rest := by
  have hroot : ∀ t ∈ rootScript.tails, t.head? = some (.act (.sm .unlink)) →
      .act (.sm .unlink) ∉ t.tail := by decide +kernel
  exact hroot _ ((List.mem_tails _ _).mpr h) rfl

theorem opens_root : .act (.sm .openCreate) ∈ rootScript := by decide

/-- The others do neither. -/
theorem peer_attaches (ha : .act a ∈ peerScript) : a ≠ .sm .openCreate ∧ a ≠ .sm .unlink := by
  refine ⟨?_, ?_⟩
  all_goals
    rintro rfl
    revert ha
    decide

def custody (call : Call n) : Custody call.protocol Unit where
  maker := 0
  files := id
  name _ := call.segName
  keeps := call.keeps
  step _ := .sm
  Own := call.Own
  step_inj h := ⟨rfl, by simpa using h⟩
  start := Files.dir_empty
  own_start := Named.fresh _
  own_exec hown h := own_perform hown (perform_of_exec h)
  own_recv {c f loc} hown := by
    cases c with
    | allgather | smBarrier => exact hown
    | xchg c =>
      simp only [protocol, if_pos]
      exact hown
  idle h := h.elim
  error h := exec_dir_error h
  create hown h := by
    obtain ⟨h', hx, -⟩ := perform_sm (perform_of_exec h)
    obtain ⟨path, hpath, rfl⟩ := of_exec_openCreate hx
    exact ⟨path, hown.path path hpath, rfl⟩
  unlink hown h := by
    obtain ⟨h', hx, -⟩ := perform_sm (perform_of_exec h)
    obtain ⟨path, hpath, rfl⟩ := of_exec_unlink hx
    exact ⟨path, hown.path path hpath, rfl⟩
  other {p a loc fs loc' fs'} hother h := by
    have hperform := perform_of_exec h
    cases a with
    | sm b =>
      obtain ⟨h', hx, -⟩ := perform_sm hperform
      have hb := hother ()
      have hdir : (Sm.exec call.keeps loc.xchg.result loc.xpm.globalSize.toNat b
          loc.xpm.qsmSegment fs).2.dir = fs.dir :=
        Sm.exec_dir (fun heq => hb.1 (heq ▸ rfl)) fun heq => hb.2 (heq ▸ rfl)
      rwa [hx] at hdir
    | _ => rw [← (Prod.mk.inj hperform).2]
  peer hp ha _ := peer_attaches (script_peer call hp ▸ ha)
  opens _ := call.script_root ▸ opens_root
  opened h := by
    rw [script_root] at h
    exact opened_root h
  unlinked h := by
    rw [script_root] at h
    exact ⟨unlinked_root h, fun _ hmem => absurd hmem (unlinked_root h)⟩

variable {s : Group n Act Coll Local Files Packet (Halt Int)}

/-- In every state of every run, the only path that may be linked is that of the segment, and
it is exactly from process 0 opening it to process 0 calling `unlink`, and beyond that if the
call is in vain. -/
theorem segment_linked_iff (hr : Reachable call.protocol s) :
    (∀ path, (s.world.dir path).isSome ↔ call.segName = .ok path ∧
      .act (.sm .openCreate) ∉ (s.proc 0).todo ∧
      (.act (.sm .unlink) ∈ (s.proc 0).todo ∨ call.keeps path = true)) ∧
    ((s.proc 0).todo = [] → ∀ path, (s.world.dir path).isSome ↔
      call.segName = .ok path ∧ call.keeps path = true) := by
  have hkept : ∀ path, (s.world.dir path).isSome ↔ ∃ _ : Unit, call.segName = .ok path ∧
      .act (.sm .openCreate) ∉ (s.proc 0).todo ∧
      (.act (.sm .unlink) ∈ (s.proc 0).todo ∨ call.keeps path = true) :=
    Custody.kept_of_reachable (C := call.custody) hr
  refine ⟨fun path => by rw [hkept path, exists_const], fun hdone path => ?_⟩
  rw [hkept path, hdone]
  simp

theorem oneSidedCall_linked : ∃ s t, Reachable oneSidedCall.protocol s ∧
    Reachable oneSidedCall.protocol t ∧ (∀ path, ¬(s.world.dir path).isSome) ∧
    ∃ path, oneSidedCall.segName = .ok path ∧ (t.world.dir path).isSome := by
  obtain ⟨s, hr, hs⟩ := completes oneSidedCall_noFailure (by decide)
  have hscript : [Instr.act (Act.sm .unlink)] <:+ oneSidedCall.protocol.script 0 := by
    rw [script_root, rootScript]
    exact ⟨createdScript ++ [.coll .smBarrier, .coll .smBarrier], by simp⟩
  obtain ⟨t, loc, ht, hproc⟩ := hr.came_by hscript (by rw [(hs 0).1]; simp)
  refine ⟨s, t, hr, ht, fun path hpath => ?_, _, rfl, ?_⟩
  · simpa [oneSidedCall] using (((segment_linked_iff hr).2 (hs 0).1 path).mp hpath).2
  · exact ((segment_linked_iff ht).1 _).mpr ⟨rfl, by simp [hproc], .inl (by simp [hproc])⟩

end LibQuo.Xpm.Call
