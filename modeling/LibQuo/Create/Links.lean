import LibQuo.Create.NoStranding
import LibQuo.Lib.Completion
import LibQuo.Links

/-!
What the creation leaves on the file system of the node: both segments have their paths only
for as long as the others need to attach to them.
-/

namespace LibQuo.Create.Call
open CMem Sm Spmd

variable {n : Nat} [NeZero n] {call : Call n}
variable {p : Fin n} {a : Act} {loc loc' : Local} {fs fs' : Files}

theorem perform_of_exec (h : call.protocol.exec p a loc fs = (.ok loc', fs')) :
    call.perform p a loc fs = (.ok loc', fs') := by
  simp only [protocol] at h
  split at h
  · simp at h
  · exact h

theorem exec_dir_error {e : Halt Int} (h : call.protocol.exec p a loc fs = (.error e, fs')) :
    fs'.dir = fs.dir := by
  simp only [protocol] at h
  split at h
  · rw [← (Prod.mk.inj h).2]
  · rw [call.perform_error h]

/-- A step on a segment, as a step of the call. -/
theorem perform_sm {m : Module} {b : Sm.Act}
    (h : call.perform p (.sm m b) loc fs = (.ok loc', fs')) :
    ∃ h', Sm.exec call.keeps (loc.path m).result (loc.segSize m) b (loc.segment m) fs =
      (.ok h', fs') ∧ loc' = loc.setSegment m h' := by
  obtain ⟨hr, hfs⟩ := Prod.mk.inj h
  cases hx : Sm.exec call.keeps (loc.path m).result (loc.segSize m) b (loc.segment m) fs with
  | mk r fs₁ =>
    rw [hx] at hr hfs
    cases r with
    | error e => simp [Except.map] at hr
    | ok h' => exact ⟨h', Prod.ext rfl hfs, (Except.ok.inj hr).symm⟩

/-- The variables of the call know no other paths than those that were made up. -/
def Own (call : Call n) (loc : Local) : Prop :=
  ∀ m, Named (call.segName m) (loc.path m) (loc.segment m)

theorem own_perform (hown : call.Own loc) (h : call.perform 0 a loc fs = (.ok loc', fs')) :
    call.Own loc' := by
  cases a with
  | xchg m b =>
    simp only [perform, if_pos] at h
    cases hx : UniqPath.execRoot (call.segName m) b (loc.path m) with
    | error e =>
      rw [hx] at h
      simp [Except.map, Except.mapError] at h
    | ok x =>
      rw [hx] at h
      obtain ⟨rfl, -⟩ : loc.setPath m x = loc' ∧ fs = fs' := by
        simpa [Except.map, Except.mapError] using h
      have hnamed := (hown m).execRoot hx
      intro m'
      cases m <;> cases m'
      · exact hnamed
      · exact hown .htopo
      · exact hown .bseg
      · exact hnamed
  | sm m b =>
    obtain ⟨h', hx, rfl⟩ := perform_sm h
    have hnamed := (hown m).exec hx
    intro m'
    cases m <;> cases m'
    · exact hnamed
    · exact hown .htopo
    · exact hown .bseg
    · exact hnamed
  | topoLoad =>
    simp only [perform] at h
    split at h
    · simp at h
    · obtain ⟨rfl, -⟩ := by simpa using h
      exact hown
  | copyXml =>
    simp only [perform] at h
    split at h
    · obtain ⟨rfl, -⟩ := by simpa using h
      exact hown
    · simp at h
  | _ =>
    obtain ⟨rfl, -⟩ := by simpa [perform] using h
    exact hown

section Scripts

variable {m : Module} {rest : List (Instr Act Coll)}

/-- Process 0 opens either segment once, and takes its path away behind that. -/
theorem opened_root (h : .act (.sm m .openCreate) :: rest <:+ rootScript) :
    .act (.sm m .openCreate) ∉ rest ∧ .act (.sm m .unlink) ∈ rest := by
  have hroot : ∀ t ∈ rootScript.tails, t.head? = some (.act (.sm m .openCreate)) →
      .act (.sm m .openCreate) ∉ t.tail ∧ .act (.sm m .unlink) ∈ t.tail := by
    cases m <;> decide +kernel
  exact hroot _ ((List.mem_tails _ _).mpr h) rfl

/-- When it takes a path away, the other segment is gone or not yet there. -/
theorem unlinked_root (h : .act (.sm m .unlink) :: rest <:+ rootScript) :
    .act (.sm m .unlink) ∉ rest ∧
      ∀ m', .act (.sm m' .unlink) ∈ rest → .act (.sm m' .openCreate) ∈ rest := by
  have hroot : ∀ t ∈ rootScript.tails, t.head? = some (.act (.sm m .unlink)) →
      .act (.sm m .unlink) ∉ t.tail ∧
        (.act (.sm .bseg .unlink) ∈ t.tail → .act (.sm .bseg .openCreate) ∈ t.tail) ∧
        (.act (.sm .htopo .unlink) ∈ t.tail → .act (.sm .htopo .openCreate) ∈ t.tail) := by
    cases m <;> decide +kernel
  obtain ⟨hm, hb, ht⟩ := hroot _ ((List.mem_tails _ _).mpr h) rfl
  exact ⟨hm, fun m' => by cases m' <;> assumption⟩

theorem opens_root (m : Module) : .act (.sm m .openCreate) ∈ rootScript := by
  cases m <;> decide

/-- The others do neither. -/
theorem peer_attaches (ha : .act a ∈ peerScript) : a ≠ .sm m .openCreate ∧ a ≠ .sm m .unlink := by
  refine ⟨?_, ?_⟩
  all_goals
    rintro rfl
    cases m <;> revert ha <;> decide

end Scripts

def custody (call : Call n) : Custody call.protocol Module where
  maker := 0
  files := id
  name := call.segName
  keeps := call.keeps
  step := .sm
  Own := call.Own
  step_inj h := by simpa using h
  start := Files.dir_empty
  own_start m := by cases m <;> exact Named.fresh _
  own_exec hown h := own_perform hown (perform_of_exec h)
  own_recv hown := by
    rw [recv_root]
    exact hown
  idle h := h.elim
  error h := exec_dir_error h
  create hown h := by
    obtain ⟨h', hx, -⟩ := perform_sm (perform_of_exec h)
    obtain ⟨path, hpath, rfl⟩ := of_exec_openCreate hx
    exact ⟨path, (hown _).path path hpath, rfl⟩
  unlink hown h := by
    obtain ⟨h', hx, -⟩ := perform_sm (perform_of_exec h)
    obtain ⟨path, hpath, rfl⟩ := of_exec_unlink hx
    exact ⟨path, (hown _).path path hpath, rfl⟩
  other {p a loc fs loc' fs'} hother h := by
    have hperform := perform_of_exec h
    cases a with
    | sm m b =>
      obtain ⟨h', hx, -⟩ := perform_sm hperform
      have hb := hother m
      have hdir : (Sm.exec call.keeps (loc.path m).result (loc.segSize m) b (loc.segment m)
          fs).2.dir = fs.dir :=
        Sm.exec_dir (fun heq => hb.1 (heq ▸ rfl)) fun heq => hb.2 (heq ▸ rfl)
      rwa [hx] at hdir
    | topoLoad =>
      simp only [perform] at hperform
      split at hperform <;> simp at hperform
      rw [← hperform.2]
    | copyXml =>
      simp only [perform] at hperform
      split at hperform <;> simp at hperform
      rw [← hperform.2]
      rfl
    | _ => rw [← (Prod.mk.inj hperform).2]
  peer hp ha _ := peer_attaches (script_peer call hp ▸ ha)
  opens m := call.script_root ▸ opens_root m
  opened h := by
    rw [script_root] at h
    exact opened_root h
  unlinked h := by
    rw [script_root] at h
    exact unlinked_root h

variable {s : Group n Act Coll Local Files Msg (Halt Int)}

/-- In every state of every run, a path is linked exactly if it is that of a segment that
process 0 has opened, and process 0 has not yet called `unlink` or has called it in vain.
When process 0 has succeeded, nothing is left but what `unlink` could not take away; and if
it fails between the two, the path stays. -/
theorem linked_iff (hr : Reachable call.protocol s) :
    (∀ path, (s.world.dir path).isSome ↔ ∃ m, call.segName m = .ok path ∧
      .act (.sm m .openCreate) ∉ (s.proc 0).todo ∧
      (.act (.sm m .unlink) ∈ (s.proc 0).todo ∨ call.keeps path = true)) ∧
    ((s.proc 0).todo = [] → ∀ path, (s.world.dir path).isSome ↔
      (∃ m, call.segName m = .ok path) ∧ call.keeps path = true) := by
  have hkept : ∀ path, (s.world.dir path).isSome ↔ ∃ m, call.segName m = .ok path ∧
      .act (.sm m .openCreate) ∉ (s.proc 0).todo ∧
      (.act (.sm m .unlink) ∈ (s.proc 0).todo ∨ call.keeps path = true) :=
    Custody.kept_of_reachable (C := call.custody) hr
  refine ⟨hkept, fun hdone path => ?_⟩
  rw [hkept path, hdone]
  simp

theorem cleanCall_linked : ∃ s t, Reachable cleanCall.protocol s ∧
    Reachable cleanCall.protocol t ∧ (∀ path, ¬(s.world.dir path).isSome) ∧
    ∃ path, cleanCall.segName .htopo = .ok path ∧ (t.world.dir path).isSome := by
  obtain ⟨s, hr, hs⟩ := (sound cleanCall).completes cleanCall.colls_script fun p a _ =>
    fails_of_clean (fun m => by cases m <;> rfl) (fun _ _ => rfl) p a
  have hscript : Instr.act (Act.sm .htopo .unlink) :: [.act .initCachedAttrs] <:+
      cleanCall.protocol.script 0 := by
    rw [script_root, rootScript]
    exact ⟨topologyScript ++ [.coll .smBarrier, .coll .smBarrier], by simp⟩
  obtain ⟨t, loc, ht, hproc⟩ := hr.came_by hscript (by rw [(hs 0).1]; simp)
  refine ⟨s, t, hr, ht, fun path hpath => ?_, _, rfl, ?_⟩
  · simpa [cleanCall] using (((linked_iff hr).2 (hs 0).1 path).mp hpath).2
  · exact ((linked_iff ht).1 _).mpr ⟨.htopo, rfl, by simp [hproc], .inl (by simp [hproc])⟩

end LibQuo.Create.Call
