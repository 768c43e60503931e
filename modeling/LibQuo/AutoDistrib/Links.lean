import LibQuo.AutoDistrib.Outcome
import LibQuo.Links

/-!
What a distribution leaves on the file system of the node: the table has a path only for as
long as the others need to attach to it.
-/

namespace LibQuo.AutoDistrib.Call
open CMem Sm Spmd

variable {n : Nat} [NeZero n] {call : Call n}
variable {p : Fin n} {a : Act n} {loc loc' : Local} {w w' : World n}

theorem perform_of_exec (h : call.protocol.exec p a loc w = (.ok loc', w')) :
    call.perform p a loc w = (.ok loc', w') := by
  simp only [protocol] at h
  split at h
  · simp at h
  · exact h

theorem exec_dir_error {e : Halt Int} (h : call.protocol.exec p a loc w = (.error e, w')) :
    w'.files.dir = w.files.dir := by
  exact congrArg (fun x => x.1.dir) (shared_error h)

/-- The variables of the call know no other path than the one that was made up. -/
def Own (call : Call n) (loc : Local) : Prop := Named call.segName loc.xchg loc.smseg

theorem own_perform (hown : call.Own loc) (h : call.perform 0 a loc w = (.ok loc', w')) :
    call.Own loc' := by
  have hframe := perform_frame h
  cases a with
  | xchg b =>
    simp only [perform, if_pos] at h
    split at h
    · simp at h
    · next x hx =>
      exact Except.ok.inj (Prod.mk.inj h).1 ▸ hown.execRoot hx
  | smConstruct =>
    obtain ⟨rfl, -⟩ := by simpa [perform] using h
    exact ⟨hown.result, by simp [Handle.fresh]⟩
  | sm b =>
    obtain ⟨h', fs, hx, rfl, -⟩ := of_perform_sm h
    exact hown.exec hx
  | _ =>
    have hxchg := hframe.xchg (by simp)
    have hsmseg := hframe.smseg (by simp) (by simp)
    exact ⟨by rw [hxchg]; exact hown.result, by rw [hsmseg]; exact hown.path⟩

omit [NeZero n] in
theorem sm_notMem_queries (b : Sm.Act) : Act.sm b ∉ call.queries := fun hmem =>
  (call.forall_mem_queries (Q := fun a => a ≠ .sm b)).mpr (by simp) _ hmem rfl

/-- Process 0 opens the segment once, and takes its path away once, behind that. -/
theorem root_opens (call : Call n) : ∃ pre post, call.protocol.script 0 =
    pre ++ .act (.sm .openCreate) :: (post ++ .act (.sm .unlink) :: [.act .decide]) ∧
    (∀ b ∈ [Sm.Act.openCreate, .unlink], .act (.sm b) ∉ pre) ∧
    ∀ b ∈ [Sm.Act.openCreate, .unlink], .act (.sm b) ∉ post := by
  refine ⟨[.act .entry, .coll .smBarrier, .act .nobjsByType] ++
    UniqPath.rootScript.map (lift .xchg .xchg) ++ call.tableScript ++ [.coll .smSegLen] ++
    [.act (.sm .cachePath)], [.act (.sm .ftruncate), .act (.sm .mmap), .act .writeHeader] ++
    (call.perRes .writeRow).map .act ++ [.coll .smBarrier, .coll .smBarrier], ?_, ?_, ?_⟩
  · simp [script_root, publishScript, segmentScript, createScript]
  · simp [UniqPath.rootScript, lift, tableScript, sm_notMem_queries]
  · simp [perRes]

def custody (call : Call n) : Custody call.protocol Unit where
  maker := 0
  files := World.files
  name _ := call.segName
  keeps := call.keeps
  step _ := .sm
  Own := call.Own
  step_inj h := ⟨rfl, by simpa using h⟩
  start := rfl
  own_start := Named.fresh _
  own_exec hown h := own_perform hown (perform_of_exec h)
  own_recv hown := by simpa [protocol] using hown
  idle := by
    rintro p w w' ⟨b, rfl⟩
    rfl
  error h := exec_dir_error h
  create hown h := by
    obtain ⟨h', fs, hx, -, rfl⟩ := of_perform_sm (perform_of_exec h)
    obtain ⟨path, hpath, rfl⟩ := of_exec_openCreate hx
    exact ⟨path, hown.path path hpath, rfl⟩
  unlink hown h := by
    obtain ⟨h', fs, hx, -, rfl⟩ := of_perform_sm (perform_of_exec h)
    obtain ⟨path, hpath, rfl⟩ := of_exec_unlink hx
    exact ⟨path, hown.path path hpath, rfl⟩
  other {p a loc w loc' w'} hother h := by
    have hperform := perform_of_exec h
    cases a with
    | sm b =>
      obtain ⟨h', fs, hx, -, rfl⟩ := of_perform_sm hperform
      have hb := hother ()
      have hdir : (Sm.exec call.keeps loc.xchg.result (toSize loc.smSegLen) b loc.smseg
          w.files).2.dir = w.files.dir :=
        Sm.exec_dir (fun heq => hb.1 (heq ▸ rfl)) fun heq => hb.2 (heq ▸ rfl)
      rwa [hx] at hdir
    | writeHeader | writeRow k =>
      obtain ⟨i, -, rfl⟩ := of_withBase hperform
      rfl
    | readHeader | readRow k =>
      obtain ⟨i, -, rfl⟩ := of_withBase hperform
      rfl
    | entry | nobjsByType | xchg b | decide =>
      simp only [perform] at hperform
      split at hperform <;> simp at hperform
      all_goals rw [← hperform.2]
    | _ => rw [← (Prod.mk.inj hperform).2]
  peer {p a} hp ha m := by
    have hscript : call.protocol.script p = call.peerScript := if_neg hp
    rw [hscript] at ha
    refine ⟨?_, ?_⟩
    all_goals
      rintro rfl
      simp [peerScript, readScript, awaitScript, UniqPath.peerScript, attachScript, lift,
        perRes] at ha
  opens m := by
    obtain ⟨pre, post, hsplit, -, -⟩ := call.root_opens
    rw [hsplit]
    simp
  opened {m rest} h := by
    obtain ⟨pre, post, hsplit, hpre, hpost⟩ := call.root_opens
    obtain ⟨d, hd⟩ := h
    rw [hsplit] at hd
    obtain ⟨-, -, rfl⟩ := (List.append_cons_inj_of_notMem (hpre _ (by simp)) (by
      simpa using hpost .openCreate (by simp))).mp hd.symm
    exact ⟨by simpa using hpost .openCreate (by simp), by simp⟩
  unlinked {m rest} h := by
    obtain ⟨pre, post, hsplit, hpre, hpost⟩ := call.root_opens
    obtain ⟨d, hd⟩ := h
    rw [hsplit, ← List.cons_append, ← List.append_assoc] at hd
    obtain ⟨-, -, rfl⟩ := (List.append_cons_inj_of_notMem (by
      simpa using ⟨hpre .unlink (by simp), hpost .unlink (by simp)⟩) (by simp)).mp hd.symm
    exact ⟨by simp, by simp⟩

variable {s : Group n (Act n) Coll Local (World n) Msg (Halt Int)}

/-- In every state of every run, the only path that may be linked is that of the table, and it
is exactly from process 0 opening the segment to process 0 calling `unlink`, and beyond that if
the call is in vain. -/
theorem table_linked_iff (hr : Reachable call.protocol s) :
    (∀ path, (s.world.files.dir path).isSome ↔ call.segName = .ok path ∧
      .act (.sm .openCreate) ∉ (s.proc 0).todo ∧
      (.act (.sm .unlink) ∈ (s.proc 0).todo ∨ call.keeps path = true)) ∧
    ((s.proc 0).todo = [] → ∀ path, (s.world.files.dir path).isSome ↔
      call.segName = .ok path ∧ call.keeps path = true) := by
  have hkept : ∀ path, (s.world.files.dir path).isSome ↔ ∃ _ : Unit, call.segName = .ok path ∧
      .act (.sm .openCreate) ∉ (s.proc 0).todo ∧
      (.act (.sm .unlink) ∈ (s.proc 0).todo ∨ call.keeps path = true) :=
    Custody.kept_of_reachable (C := call.custody) hr
  refine ⟨fun path => by rw [hkept path, exists_const], fun hdone path => ?_⟩
  rw [hkept path, hdone]
  simp

theorem pairCall_linked : ∃ s t, Reachable pairCall.protocol s ∧
    Reachable pairCall.protocol t ∧ (∀ path, ¬(s.world.files.dir path).isSome) ∧
    ∃ path, pairCall.segName = .ok path ∧ (t.world.files.dir path).isSome := by
  obtain ⟨s, hr, -, hs⟩ := pairCall_neverFails.completes pairCall.colls_script
  obtain ⟨pre, post, hsplit, -, -⟩ := pairCall.root_opens
  have hscript : Instr.act (Act.sm .unlink) :: [.act .decide] <:+ pairCall.protocol.script 0 := by
    rw [hsplit]
    exact ⟨pre ++ .act (.sm .openCreate) :: post, by simp⟩
  obtain ⟨t, loc, ht, hproc⟩ := hr.came_by hscript (by rw [(hs 0).1]; simp)
  refine ⟨s, t, hr, ht, fun path hpath => ?_, _, rfl, ?_⟩
  · simpa [pairCall] using (((table_linked_iff hr).2 (hs 0).1 path).mp hpath).2
  · exact ((table_linked_iff ht).1 _).mpr ⟨rfl, by simp [hproc], .inl (by simp [hproc])⟩

end LibQuo.AutoDistrib.Call
