import LibQuo.AutoDistrib.Run

/-!
Every run of the call follows its replay, whichever local steps fail; and which
local steps fail is known beforehand, up to the last collective.
-/

namespace LibQuo.AutoDistrib.Call
open CMem Sm Spmd

variable {n : Nat} [NeZero n] {call : Call n} {E : Reads n}
variable {s : Group n (Act n) Coll Local (World n) Msg (Halt Int)}

/-! ## The shared part of the world -/

variable (call) in
/-- What a step does to the world: the entry is noted, a query is noted, or nothing
changes but the files. -/
theorem exec_world (p : Fin n) (a : Act n) (loc : Local) (w : World n) :
    (∃ fs, (call.protocol.exec p a loc w).2 = { w with files := fs }) ∨
      (a = .entry ∧ (call.protocol.exec p a loc w).2 =
        { w with entered := Function.update w.entered p (some (w.binding p)) }) ∨
      ∃ rid r, a = .qidsQuery rid r ∧ (call.protocol.exec p a loc w).2 =
        { w with reads := w.reads ++ [(rid, r, w.binding r)] } := by
  cases hf : call.fault p a with
  | some e => exact .inl ⟨w.files, by rw [exec_of_fault hf]⟩
  | none =>
    rw [exec_of_noFault hf]
    cases a with
    | entry =>
      simp only [perform]
      split
      · exact .inl ⟨w.files, rfl⟩
      · exact .inr (.inl ⟨trivial, rfl⟩)
    | qidsQuery rid r => exact .inr (.inr ⟨rid, r, rfl, rfl⟩)
    | nobjsByType | xchg a | decide =>
      simp only [perform]
      split <;> exact .inl ⟨w.files, rfl⟩
    | sm a =>
      simp only [perform]
      split
      · exact .inl ⟨w.files, rfl⟩
      · split <;> exact .inl ⟨_, rfl⟩
    | writeHeader | writeRow i | readHeader | readRow i =>
      simp only [perform, withBase]
      split
      · exact .inl ⟨w.files, rfl⟩
      · split
        · exact .inl ⟨w.files, rfl⟩
        · exact .inl ⟨_, rfl⟩
    | _ => exact .inl ⟨w.files, rfl⟩

theorem reads_exec (p : Fin n) (a : Act n) (loc : Local) (w : World n) :
    w.reads <+: (call.protocol.exec p a loc w).2.reads := by
  rcases call.exec_world p a loc w with ⟨fs, h⟩ | ⟨-, h⟩ | ⟨rid, r, -, h⟩
  · rw [h]
  · rw [h]
  · rw [h]
    exact List.prefix_append _ _

theorem shared_error {p : Fin n} {a : Act n} {loc : Local} {w w' : World n} {e : Halt Int}
    (h : call.protocol.exec p a loc w = (.error e, w')) : w'.shared = w.shared := by
  cases hf : call.fault p a with
  | some e' =>
    rw [exec_of_fault hf] at h
    rw [← (Prod.mk.inj h).2]
  | none =>
    rw [exec_of_noFault hf] at h
    cases a with
    | smConstruct | callocNranks | callocRankIds | qidsBegin rid | qidsQuery rid r
    | qidsEnd rid | sumSegLen =>
      simp [perform] at h
    | entry | nobjsByType | xchg a | decide =>
      simp only [perform] at h
      split at h <;> simp at h
      all_goals rw [← h.2]
    | writeHeader | writeRow i | readHeader | readRow i =>
      simp only [perform, withBase] at h
      split at h
      · rw [← (Prod.mk.inj h).2]
      · split at h
        · rw [← (Prod.mk.inj h).2]
        · simp at h
    | sm a =>
      simp only [perform] at h
      split at h
      · rw [← (Prod.mk.inj h).2]
      · split at h
        · next hx =>
          rw [← (Prod.mk.inj h).2, exec_error hx]
        · simp at h

theorem quiet_peer {p : Fin n} {a : Act n} (hp : p ≠ 0) (ha : .act a ∈ call.protocol.script p)
    (loc : Local) (w : World n) : (call.protocol.exec p a loc w).2.shared = w.shared := by
  obtain ⟨d, rest, hd⟩ := List.append_of_mem ha
  have hplace := (call.placed_peer p hp).at hd
  cases hf : call.fault p a with
  | some e => simp [exec_of_fault hf]
  | none =>
    rw [exec_of_noFault hf]
    exact (call.perform_peer hplace loc (w := w) (v := w) (fun _ => rfl) fun _ => rfl).2

/-! ## Where process 0 is when another reads -/

variable (call) in
theorem script_root : call.protocol.script 0 = call.publishScript ++
    ([.coll .smBarrier, .coll .smBarrier, .act (.sm .unlink), .act .decide] :
      List (Instr (Act n) Coll)) := by
  simp [protocol, rootScript]

omit [NeZero n] in
theorem length_colls_publishScript : (colls call.publishScript).length = 4 := by
  have := congrArg List.length call.colls_rootScript
  rw [rootScript, colls_append, List.length_append] at this
  simpa [colls, sequence] using this

/-- Once another process has left the fifth collective, process 0 has published, and
has not removed the path before that process enters the sixth. -/
theorem root_past (hr : Reachable call.protocol s) {p : Fin n} (hleft : 4 < left s p)
    {d : List (Instr (Act n) Coll)} (hd : call.protocol.script 0 = d ++ (s.proc 0).todo) :
    ∃ e, d = call.publishScript ++ e ∧ (∀ a, .act a ∈ e → a = .sm .unlink ∨ a = .decide) ∧
      ((s.posted p).length ≤ 5 → ∀ a, .act a ∉ e) := by
  have hposted : 4 < (s.posted 0).length := hr.ordered call.colls_script hleft rfl 0
  obtain ⟨e, he⟩ := hr.todo_of_posted call.colls_script call.script_root
    (by rw [length_colls_publishScript]; exact hposted)
  have hde : d = call.publishScript ++ e := by
    rw [script_root, ← he, ← List.append_assoc] at hd
    exact (List.append_cancel_right hd).symm
  refine ⟨e, hde, fun a ha => ?_, fun hle a ha => ?_⟩
  · have hmem : Instr.act a ∈ e ++ (s.proc 0).todo := List.mem_append_left _ ha
    rw [he] at hmem
    simpa using hmem
  · have hleft₀ : left s 0 ≤ 5 := by
      by_contra hlt
      have := hr.ordered call.colls_script (not_le.mp hlt) rfl p
      omega
    have hsplit : call.protocol.script 0 = (call.publishScript ++ [Instr.coll Coll.smBarrier]) ++
        Instr.coll Coll.smBarrier :: [Instr.act (Act.sm .unlink), Instr.act Act.decide] := by
      rw [script_root, List.append_assoc]
      rfl
    obtain ⟨f, hf⟩ := hr.todo_of_not_left call.colls_script hsplit
      (by rw [colls_append, List.length_append, length_colls_publishScript]; exact hleft₀)
    rw [← hf] at he
    have hef : e ++ f = [Instr.coll Coll.smBarrier] := by
      rw [← List.append_assoc] at he
      exact List.append_cancel_right
        (he : _ = [Instr.coll Coll.smBarrier] ++ Instr.coll Coll.smBarrier :: _)
    have hmem : Instr.act a ∈ e ++ f := List.mem_append_left _ ha
    rw [hef] at hmem
    simp at hmem

/-- Removing the path and deciding leave the stores alone. -/
theorem store_tail {e : List (Instr (Act n) Coll)}
    (he : ∀ a, .act a ∈ e → a = .sm .unlink ∨ a = .decide) (x : Local × Shared n) :
    (e.foldl (advance call.protocol (call.reference E) 0) x).2.1.store = x.2.1.store := by
  refine foldl_advance_keep (fun x : Local × Shared n => x.2.1.store) fun i hi y => ?_
  cases i with
  | coll c => simp [advance]
  | act a =>
    rcases he a hi with rfl | rfl
    · have hne : ¬ (Sm.Act.unlink = .ftruncate ∧ offLimit ≤ toSize y.1.smSegLen) := by simp
      simp only [advance, reference, if_pos, rootAct, perform, if_neg hne, Sm.exec]
      cases y.1.smseg.path with
      | none => rfl
      | some path =>
        simp only [rootWorld, World.shared]
        split <;> rfl
    · simp only [advance, reference, if_pos, rootAct, perform]
      cases call.decide 0 y.1 <;> rfl

theorem shared_tail {e : List (Instr (Act n) Coll)} (he : ∀ a, .act a ∉ e)
    (x : Local × Shared n) :
    e.foldl (advance call.protocol (call.reference E) 0) x = x := by
  refine foldl_advance_keep id fun i hi y => ?_
  cases i with
  | coll c => simp [advance, protocol]
  | act a => exact absurd hi (he a)

/-! ## Runs follow their replay -/

/-- What another process meets on the segment is what process 0 has published. -/
theorem peer_meets (hr : Reachable call.protocol s)
    (hf : Follows call.protocol (call.reference E) s) {p : Fin n} {a : Act n}
    (ha : peerPlace a (left s p)) (hlen : (s.posted p).length = left s p) :
    (a.onSegment → Publishes call E) ∧
      (a = .sm .openRdwr → s.world.files.dir = (call.published E).2.1.dir) ∧
      (a.onSegment → s.world.files.store = (call.published E).2.1.store) := by
  by_cases hon : a.onSegment
  · have h5 : 4 < left s p ∧ (a = .sm .openRdwr → left s p ≤ 5) := by
      cases a with
      | sm b =>
        obtain ⟨h, -⟩ := ha
        exact ⟨by omega, fun _ => by omega⟩
      | readHeader | readRow i => exact ⟨by simp only [peerPlace] at ha; omega, by simp⟩
      | _ => exact absurd hon id
    obtain ⟨d, hd⟩ := hf.proc 0
    obtain ⟨e, rfl, he, hnone⟩ := root_past hr h5.1 hd.split
    have hshared := hd.shared rfl
    rw [replay_append, replay_root] at hshared
    have hdir : s.world.files = (e.foldl (advance call.protocol (call.reference E) 0)
        (call.published E)).2.1 := congrArg Prod.fst hshared
    refine ⟨fun _ b hb => hd.succeeds b (List.mem_append_left _ hb), fun hopen => ?_, fun _ => ?_⟩
    · rw [hdir, shared_tail (hnone (by rw [hlen]; exact h5.2 hopen))]
    · rw [hdir, store_tail he]
  · exact ⟨fun h => absurd h hon, fun h => absurd (by rw [h]; trivial) hon,
      fun h => absurd h hon⟩

theorem exec_ok {p : Fin n} {a : Act n} {loc loc' : Local} {w w' : World n}
    (h : call.protocol.exec p a loc w = (.ok loc', w')) :
    call.fault p a = none ∧ call.perform p a loc w = (.ok loc', w') := by
  cases hf : call.fault p a with
  | some e => simp [exec_of_fault hf] at h
  | none => exact ⟨rfl, by rwa [exec_of_noFault hf] at h⟩

omit [NeZero n] in
theorem fails_eq_false {p : Fin n} {a : Act n} (hf : call.fault p a = none)
    (hd : call.dead a = false) : call.fails p a = false := by
  simp [fails, hf, hd]

omit [NeZero n] in
theorem fault_eq_none {p : Fin n} {a : Act n} (h : a.failsWith = []) : call.fault p a = none := by
  by_contra hne
  obtain ⟨e, he⟩ := Option.ne_none_iff_exists'.mp hne
  simpa [h] using call.fault_mem p a e he

omit [NeZero n] in
theorem fails_of_sound {p : Fin n} {a : Act n} (h : a.failsWith = []) :
    call.fails p a = call.dead a := by
  simp [fails, fault_eq_none h]

theorem failsFor_root (a : Act n) :
    call.failsFor (call.rowsSeen E) 0 a = ((call.fault 0 a).isSome || call.stops E a) := by
  simp [failsFor, fails, stops, Bool.or_assoc]

theorem failsFor_peer {rows : List (List Int)} {p : Fin n} (hp : p ≠ 0) (a : Act n) :
    call.failsFor rows p a = call.fails p a := by
  simp [failsFor, hp]

section At

variable {p : Fin n} {a : Act n} {d rest : List (Instr (Act n) Coll)}

theorem rootReady_at (hd : call.protocol.script 0 = d ++ .act a :: rest)
    (hs : Succeeds (call.reference E) 0 d) :
    RootReady call E a (replay call.protocol (call.reference E) 0 d) := by
  have hwp := rootWp_script call E
  have hscript : call.rootScript = d ++ .act a :: rest := by rw [← hd]; simp [protocol]
  rw [hscript] at hwp
  exact wp_at hwp hs

theorem peerReady_at (hp : p ≠ 0) (hd : call.protocol.script p = d ++ .act a :: rest)
    (hs : Succeeds (call.reference E) p d) :
    PeerReady call E p a (replay call.protocol (call.reference E) p d) := by
  have hwp := peerWp_script call E hp
  have hscript : call.peerScript = d ++ .act a :: rest := by rw [← hd]; simp [protocol, hp]
  rw [hscript] at hwp
  exact wp_at hwp hs

/-- A step that succeeds is not one that fails for what is read. -/
theorem RootReady.alive {x : Local × Shared n} (h : RootReady call E a x) {loc : Local}
    (hok : (call.perform 0 a x.1 (rootWorld E x.2)).1 = .ok loc) : call.stops E a = false := by
  by_cases ha : a = .decide
  · subst ha
    rfl
  · have := (h ha).1
    rw [hok] at this
    simpa [Except.isOk, Except.toBool] using this

theorem PeerReady.alive {x : Local × Shared n} (h : PeerReady call E p a x)
    (hon : a.onSegment → Publishes call E) {loc : Local}
    (hok : (call.perform p a x.1 (peerWorld (call.published E).2.1)).1 = .ok loc) :
    call.dead a = false := by
  by_cases ha : a = .decide
  · subst ha
    rfl
  · have := (h ha hon).1
    rw [hok] at this
    simpa [Except.isOk, Except.toBool] using this

variable {loc loc' : Local} {w' : World n}

theorem act_root (hd : FollowsAt call.protocol (call.reference E) s 0 d)
    (hp : s.proc 0 = ⟨.act a :: rest, false, loc, none⟩)
    (hx : call.protocol.exec 0 a loc s.world = (.ok loc', w')) (hC : w'.reads <+: E) :
    call.failsFor (call.rowsSeen E) 0 a = false ∧
      call.rootAct E a (replay call.protocol (call.reference E) 0 d) = (loc', w'.shared) := by
  obtain ⟨hfault, hperform⟩ := exec_ok hx
  have hloc : loc = (replay call.protocol (call.reference E) 0 d).1 := by
    simpa [hp] using hd.loc
  have hshared : s.world.shared = (replay call.protocol (call.reference E) 0 d).2 :=
    hd.shared rfl
  have hsplit : call.protocol.script 0 = d ++ .act a :: rest := by simpa [hp] using hd.split
  -- the next binding read is the one `E` has, since `E` begins with what is read
  have hb : ∀ rid r, a = .qidsQuery rid r → s.world.binding r =
      (rootWorld E (replay call.protocol (call.reference E) 0 d).2).binding r := by
    rintro rid r rfl
    have hreads : w'.reads = s.world.reads ++ [(rid, r, s.world.binding r)] := by
      rw [← (Prod.mk.inj hperform).2]
    obtain ⟨rest', rfl⟩ := hC
    rw [← hshared]
    simp [rootWorld, World.shared, hreads]
  obtain ⟨h₁, h₂⟩ := call.perform_congr (p := 0) (a := a) loc hshared hb
  rw [hperform] at h₁ h₂
  rw [hloc] at h₁ h₂
  refine ⟨?_, ?_⟩
  · rw [failsFor_root, hfault, (rootReady_at hsplit hd.succeeds).alive h₁.symm]
    rfl
  unfold rootAct
  generalize call.perform 0 a _ _ = y at h₁ h₂ ⊢
  obtain ⟨r, w⟩ := y
  simp only at h₁ h₂
  subst h₁
  rw [h₂]

theorem act_peer (hr : Reachable call.protocol s)
    (hf : Follows call.protocol (call.reference E) s) (hp₀ : p ≠ 0)
    (hd : FollowsAt call.protocol (call.reference E) s p d)
    (hp : s.proc p = ⟨.act a :: rest, false, loc, none⟩)
    (hx : call.protocol.exec p a loc s.world = (.ok loc', w')) :
    call.failsFor (call.rowsSeen E) p a = false ∧
      (call.peerAct E p a (replay call.protocol (call.reference E) p d)).1 = loc' := by
  obtain ⟨hfault, hperform⟩ := exec_ok hx
  have hloc : loc = (replay call.protocol (call.reference E) p d).1 := by
    simpa [hp] using hd.loc
  have hsplit : call.protocol.script p = d ++ .act a :: rest := by simpa [hp] using hd.split
  have hplace : peerPlace a (left s p) :=
    hr.place call.colls_script (call.placed_peer p hp₀) (by rw [hp])
  obtain ⟨hon, hdir, hstore⟩ := peer_meets hr hf hplace (by simp [left, hp])
  obtain ⟨h₁, -⟩ := call.perform_peer (p := p) hplace loc (w := s.world)
    (v := peerWorld (call.published E).2.1) hdir (by
      rintro (rfl | ⟨i, rfl⟩)
      · exact hstore trivial
      · exact hstore trivial)
  rw [hperform] at h₁
  rw [hloc] at h₁
  refine ⟨?_, ?_⟩
  · rw [failsFor_peer hp₀]
    exact fails_eq_false hfault ((peerReady_at hp₀ hsplit hd.succeeds).alive hon h₁.symm)
  unfold peerAct
  generalize call.perform p a _ _ = y at h₁ ⊢
  obtain ⟨r, w⟩ := y
  simp only at h₁
  subst h₁
  rfl

end At

/-! ## What process 0 sends -/

variable (call E) in
/-- What a part of the script after `d` does not change is, at the end, what it is
after `d`. -/
theorem published_keep {γ : Type} (g : Local × Shared n → γ) {d e : List (Instr (Act n) Coll)}
    (hde : call.publishScript = d ++ e)
    (h : ∀ a, .act a ∈ e → ∀ x, g (call.rootAct E a x) = g x) :
    g (replay call.protocol (call.reference E) 0 d) = g (call.published E) := by
  rw [published, ← replay_root, hde, replay_append]
  refine (foldl_advance_keep g fun i hi x => ?_).symm
  cases i with
  | act a => rw [advance, reference_act_root, h a hi x]
  | coll c => simp [advance, protocol]

omit [NeZero n] in
theorem publishScript_plen : call.publishScript =
    ([.act .entry, .coll .smBarrier, .act .nobjsByType, .act (.xchg .getSegmentName)] :
      List (Instr (Act n) Coll)) ++ Instr.coll (Coll.xchg .plen) ::
      Instr.act (Act.xchg .checkPlen) :: Instr.coll (Coll.xchg .result) ::
        (call.tableScript ++ Instr.coll Coll.smSegLen :: call.segmentScript) := by
  simp [publishScript, UniqPath.rootScript, lift]

omit [NeZero n] in
theorem publishScript_result : call.publishScript =
    ([.act .entry, .coll .smBarrier, .act .nobjsByType, .act (.xchg .getSegmentName),
      .coll (.xchg .plen), .act (.xchg .checkPlen)] : List (Instr (Act n) Coll)) ++
      Instr.coll (Coll.xchg .result) ::
        (call.tableScript ++ Instr.coll Coll.smSegLen :: call.segmentScript) := by
  simp [publishScript, UniqPath.rootScript, lift]

def pathScript : List (Instr (Act n) Coll) :=
  [.act .entry, .coll .smBarrier, .act .nobjsByType, .act (.xchg .getSegmentName),
    .coll (.xchg .plen), .act (.xchg .checkPlen), .coll (.xchg .result)]

omit [NeZero n] in
theorem publishScript_smSegLen : call.publishScript =
    (pathScript ++ call.tableScript) ++ Instr.coll Coll.smSegLen :: call.segmentScript := by
  simp [publishScript, pathScript, UniqPath.rootScript, lift]

variable (call) in
omit [NeZero n] in
theorem act_mem_tableScript {a : Act n} (ha : .act a ∈ call.tableScript) :
    ∀ b, a ≠ .xchg b := by
  have h : ∀ a ∈ call.queries, ∀ b, a ≠ .xchg b := by
    rw [forall_mem_queries]
    simp
  simp only [tableScript, List.mem_append, List.mem_cons, List.mem_map, List.not_mem_nil,
    or_false, Instr.act.injEq] at ha
  rcases ha with ((rfl | rfl | rfl) | ⟨a, ha, rfl⟩) | rfl
  · simp
  · simp
  · simp
  · exact h a ha
  · simp

variable (call) in
omit [NeZero n] in
theorem act_mem_segmentScript {a : Act n} (ha : .act a ∈ call.segmentScript) :
    a ≠ .sumSegLen ∧ ∀ b, a ≠ .xchg b := by
  have h : ∀ a ∈ call.perRes .writeRow, a ≠ .sumSegLen ∧ ∀ b, a ≠ .xchg b := by
    rw [forall_mem_perRes]
    simp
  simp only [segmentScript, List.mem_append, List.mem_cons, List.mem_map, List.not_mem_nil,
    or_false, Function.comp, Instr.act.injEq] at ha
  rcases ha with (⟨b, -, rfl⟩ | rfl) | ⟨a, ha, rfl⟩
  · simp
  · simp
  · exact h a ha

theorem send_root {d rest : List (Instr (Act n) Coll)} {c : Coll}
    (hd : call.protocol.script 0 = d ++ .coll c :: rest) :
    call.protocol.send 0 c (replay call.protocol (call.reference E) 0 d).1 =
      (call.reference E).msg 0 c := by
  rw [script_root] at hd
  cases c with
  | smBarrier => simp [protocol, reference]
  | xchg c =>
    cases c with
    | plen =>
      have hd' := eq_of_coll_split publishScript_plen hd (by simp [colls])
        (by simp [colls, colls_append, colls_tableScript, colls_segmentScript])
      rw [hd', replay_root]
      cases hname : call.segName <;> cases hnobjs : call.nobjs with
      | error e => simp [protocol, reference, rootRun, rootAct, perform, UniqPath.execRoot,
          UniqPath.send, hname, hnobjs]
      | ok k => cases k <;> simp [protocol, reference, rootRun, rootAct, perform,
          UniqPath.execRoot, UniqPath.send, hname, hnobjs]
    | result =>
      have hd' := eq_of_coll_split publishScript_result hd (by simp [colls])
        (by simp [colls, colls_append, colls_tableScript, colls_segmentScript])
      have hkeep := published_keep call E (fun x : Local × Shared n => x.1.xchg)
        publishScript_result fun a ha x => (rootAct_frame a x).xchg (by
          simp only [List.mem_cons, List.mem_append, reduceCtorEq, false_or] at ha
          rcases ha with ha | ha
          · exact call.act_mem_tableScript ha
          · exact (call.act_mem_segmentScript ha).2)
      have hsend : ∀ loc, call.protocol.send 0 (.xchg .result) loc = .path loc.xchg.result :=
        fun loc => by simp [protocol, UniqPath.send]
      rw [hd', hsend, hkeep]
      simp [reference]
  | smSegLen =>
    have hd' := eq_of_coll_split publishScript_smSegLen hd
      (by simp [pathScript, colls, colls_tableScript])
      (by simp [colls, colls_append, colls_segmentScript])
    have hkeep := published_keep call E (fun x : Local × Shared n => x.1.smSegLen)
      publishScript_smSegLen fun a ha x => (rootAct_frame a x).smSegLen (by
        simp only [List.mem_cons, reduceCtorEq, false_or] at ha
        exact (call.act_mem_segmentScript ha).1)
    have hsend : ∀ loc, call.protocol.send 0 .smSegLen loc = .int loc.smSegLen :=
      fun loc => by simp [protocol]
    rw [hd', hsend, hkeep]
    simp [reference]

theorem faithful (call : Call n) (E : Reads n) :
    Faithful call.protocol (call.reference E) fun w => w.reads <+: E where
  earlier p a loc w h := (reads_exec p a loc w).trans h
  earlier_idle p w w' h hw := by
    obtain ⟨b, rfl⟩ := h
    exact hw
  quiet p a loc w hp ha := quiet_peer hp ha loc w
  quiet_idle p w w' h := by
    obtain ⟨b, rfl⟩ := h
    rfl
  fail p a loc w e w' h := shared_error h
  act s p a d rest loc loc' w' hr hf hd hp hx hC := by
    by_cases hp₀ : p = 0
    · subst hp₀
      obtain ⟨h₁, h₂⟩ := act_root hd hp hx hC
      rw [reference_act_root, h₂]
      exact ⟨h₁, rfl, fun _ => rfl⟩
    · obtain ⟨h₁, h₂⟩ := act_peer hr hf hp₀ hd hp hx
      rw [reference_act_peer call E hp₀]
      exact ⟨h₁, h₂.symm, fun h => absurd h hp₀⟩
  send p d c rest hd _ := by
    by_cases hp : p = 0
    · subst hp
      exact send_root hd
    · simp [protocol, reference, hp]
  recv p c f loc hval hsome := by
    by_cases hp : p = 0
    · simp [protocol, hp]
    · cases c with
      | smBarrier => simp [protocol]
      | xchg c =>
        obtain ⟨v, hv⟩ := Option.isSome_iff_exists.mp (hsome 0 (.inr rfl))
        obtain rfl := hval 0 v hv
        simp only [protocol, if_neg hp, hv]
      | smSegLen =>
        obtain ⟨v, hv⟩ := Option.isSome_iff_exists.mp (hsome 0 (.inr rfl))
        obtain rfl := hval 0 v hv
        simp only [protocol, if_neg hp, hv]

/-- The run so far follows the replay for what process 0 has read. -/
theorem follows (hr : Reachable call.protocol s) :
    Follows call.protocol (call.reference s.world.reads) s :=
  (faithful call s.world.reads).follows call.colls_script hr List.prefix_rfl

/-- Process 0 finds its variables and the files as they are in the replay. -/
theorem root_ready (hr : Reachable call.protocol s) {a : Act n} {rest : List (Instr (Act n) Coll)}
    {loc : Local} (hp : s.proc 0 = ⟨.act a :: rest, false, loc, none⟩)
    (hquery : ∀ rid r, a ≠ .qidsQuery rid r) : ∃ x, RootReady call s.world.reads a x ∧
      (call.perform 0 a loc s.world).1 =
        (call.perform 0 a x.1 (rootWorld s.world.reads x.2)).1 := by
  obtain ⟨d, hd⟩ := (follows hr).proc 0
  have hloc : loc = (replay call.protocol (call.reference s.world.reads) 0 d).1 := by
    simpa [hp] using hd.loc
  refine ⟨_, rootReady_at (by simpa [hp] using hd.split) hd.succeeds, ?_⟩
  rw [(call.perform_congr (p := 0) (a := a) loc
    (v := rootWorld s.world.reads (replay call.protocol _ 0 d).2) (hd.shared rfl)
    fun rid r h => absurd h (hquery rid r)).1, hloc]

/-- A step before the decision fails exactly when its allocation or system call does, or it
is dead, or it is one of process 0 for which the segment is too short. -/
theorem exec_isOk (hr : Reachable call.protocol s) {p : Fin n} {a : Act n}
    {rest : List (Instr (Act n) Coll)} {loc : Local}
    (hp : s.proc p = ⟨.act a :: rest, false, loc, none⟩) (hdecide : a ≠ .decide) :
    (call.protocol.exec p a loc s.world).1.isOk =
      !call.failsFor (call.rowsSeen s.world.reads) p a := by
  cases hfault : call.fault p a with
  | some e =>
    rw [exec_of_fault hfault]
    simp [failsFor, fails, hfault, Except.isOk, Except.toBool]
  | none =>
    rw [exec_of_noFault hfault]
    by_cases hp₀ : p = 0
    · subst hp₀
      rw [failsFor_root, hfault, Option.isSome_none, Bool.false_or]
      by_cases hquery : ∃ rid r, a = .qidsQuery rid r
      · obtain ⟨rid, r, rfl⟩ := hquery
        rfl
      · obtain ⟨x, hready, heq⟩ := root_ready hr hp fun rid r h => hquery ⟨rid, r, h⟩
        rw [heq]
        exact (hready hdecide).1
    · have hf := follows hr
      obtain ⟨d, hd⟩ := hf.proc p
      have hloc : loc = (replay call.protocol (call.reference s.world.reads) p d).1 := by
        simpa [hp] using hd.loc
      have hsplit : call.protocol.script p = d ++ .act a :: rest := by simpa [hp] using hd.split
      have hplace : peerPlace a (left s p) :=
        hr.place call.colls_script (call.placed_peer p hp₀) (by rw [hp])
      obtain ⟨hon, hdir, hstore⟩ := peer_meets hr hf hplace (by simp [left, hp])
      have hfails : call.failsFor (call.rowsSeen s.world.reads) p a = call.dead a := by
        simp [failsFor_peer hp₀, fails, hfault]
      rw [hfails, (call.perform_peer (p := p) hplace loc
        (v := peerWorld (call.published s.world.reads).2.1) hdir (by
          rintro (rfl | ⟨i, rfl⟩)
          · exact hstore trivial
          · exact hstore trivial)).1, hloc]
      exact (peerReady_at hp₀ hsplit hd.succeeds hdecide hon).1

/-- What fails whatever can be allocated ends with a code. -/
theorem code_of_dead {p : Fin n} {a : Act n} {loc : Local} {w w' : World n} {e : Halt Int}
    (hd : call.dead a = true) (h : call.perform p a loc w = (.error e, w')) :
    ∃ c, e = .code c := by
  cases a with
  | entry | nobjsByType =>
    simp only [perform] at h
    split at h
    all_goals first
      | exact ⟨_, (Except.error.inj (Prod.mk.inj h).1).symm⟩
      | simp at h
  | xchg b =>
    simp only [perform] at h
    split at h
    · next e' hx =>
      obtain rfl := Except.error.inj (Prod.mk.inj h).1
      by_cases hp : p = 0
      · rw [if_pos hp] at hx
        exact UniqPath.execRoot_error hx
      · rw [if_neg hp] at hx
        exact UniqPath.execPeer_error hx
    · simp at h
  | _ => simp [dead] at hd

/-- And so does every other step before the decision, unless it writes to the segment. -/
theorem code_of_error (hr : Reachable call.protocol s) {p : Fin n} {a : Act n}
    {rest : List (Instr (Act n) Coll)} {loc : Local} {e : Halt Int} {w : World n}
    (hp : s.proc p = ⟨.act a :: rest, false, loc, none⟩) (hdecide : a ≠ .decide)
    (hx : call.protocol.exec p a loc s.world = (.error e, w)) (hwrite : ¬a.writes) :
    ∃ c, e = .code c := by
  cases hfault : call.fault p a with
  | some e' =>
    rw [exec_of_fault hfault] at hx
    exact ⟨_, (Except.error.inj (Prod.mk.inj hx).1).symm⟩
  | none =>
    have hok := exec_isOk hr hp hdecide
    rw [hx] at hok
    rw [exec_of_noFault hfault] at hx
    by_cases hp₀ : p = 0
    · subst hp₀
      have hquery : ∀ rid r, a ≠ .qidsQuery rid r := by
        rintro rid r rfl
        simp [perform] at hx
      obtain ⟨x, hready, heq⟩ := root_ready hr hp hquery
      exact (hready hdecide).2 e (by rw [← heq, hx]) hwrite
    · have hfails : call.dead a = true := by
        simpa [failsFor_peer hp₀, fails, hfault, Except.isOk, Except.toBool] using hok
      exact code_of_dead hfails hx

/-- The decision is behind all collectives. -/
theorem left_decide (hr : Reachable call.protocol s) {p : Fin n}
    {rest : List (Instr (Act n) Coll)} {loc : Local}
    (hp : s.proc p = ⟨.act .decide :: rest, false, loc, none⟩) : left s p = 6 := by
  by_cases hp₀ : p = 0
  · subst hp₀
    exact hr.place call.colls_script placed_root (a := .decide) (by rw [hp])
  · exact hr.place call.colls_script (call.placed_peer p hp₀) (a := .decide) (by rw [hp])

theorem colls_decide (hr : Reachable call.protocol s) {p : Fin n}
    {rest : List (Instr (Act n) Coll)} {loc : Local}
    (hp : s.proc p = ⟨.act .decide :: rest, false, loc, none⟩) : colls rest = [] := by
  have hsum := hr.left_add_colls call.colls_script p
  rw [hp, left_decide hr hp] at hsum
  simpa [colls, sequence] using hsum

/-! ## What process 0 has read -/

theorem rootRun_acts (d : List (Instr (Act n) Coll)) (as : List (Act n)) :
    call.rootRun E (d ++ as.map .act) = call.rootActs E as (call.rootRun E d) := by
  rw [rootRun, List.foldl_append, List.foldl_map]
  rfl

variable (call E) in
/-- Once process 0 has queried everything, it has read one binding of everybody for each
resource. -/
theorem reads_queried {d : List (Instr (Act n) Coll)} (hd : ∀ rid r, .act (.qidsQuery rid r) ∉ d) :
    (call.rootRun E (d ++ call.tableScript)).2.2 = readsUpTo E call.nres := by
  have hbegin : (call.rootRun E d).2.2 = [] := by
    rw [← replay_root, replay]
    refine (foldl_advance_keep (fun x : Local × Shared n => x.2.2) fun i hi y => ?_).trans rfl
    cases i with
    | act a =>
      rw [advance, reference_act_root]
      exact (rootAct_frame a y).reads fun rid r h => hd rid r (h ▸ hi)
    | coll c => rfl
  obtain ⟨smpranks, hqueries⟩ := @rootActs_queries n call E _
    (call.rootActs E [.smConstruct, .callocNranks, .callocRankIds] (call.rootRun E d))
    List.length_replicate List.length_replicate hbegin
  have hscript : call.tableScript = ([.smConstruct, .callocNranks, .callocRankIds] ++
      call.queries ++ [.sumSegLen] : List (Act n)).map .act := by simp [tableScript]
  rw [hscript, rootRun_acts, rootActs_append, rootActs_append, hqueries]
  rfl

/-- Once process 0 has broadcast the length, its table is built, and it queries no more. -/
theorem root_queried (hr : Reachable call.protocol s) (hleft : 3 < left s 0)
    {d : List (Instr (Act n) Coll)} (hd : call.protocol.script 0 = d ++ (s.proc 0).todo) :
    ∃ e, d = pathScript ++ call.tableScript ++ Instr.coll Coll.smSegLen :: e ∧
      ∀ rid r, .act (.qidsQuery rid r) ∉ e := by
  have hsplit : call.protocol.script 0 = (pathScript ++ call.tableScript) ++
      Instr.coll Coll.smSegLen :: (call.segmentScript ++
        [.coll .smBarrier, .coll .smBarrier, .act (.sm .unlink), .act .decide]) := by
    rw [script_root, publishScript_smSegLen, List.append_assoc]
    rfl
  obtain ⟨e, rfl, he⟩ := hr.done_of_left call.colls_script hsplit
    (by simpa [pathScript, colls, colls_append, colls_tableScript] using hleft) hd
  refine ⟨e, rfl, fun rid r hmem => ?_⟩
  have hmem' : Instr.act (Act.qidsQuery rid r) ∈ call.segmentScript ++
      [.coll .smBarrier, .coll .smBarrier, .act (.sm .unlink), .act .decide] := by
    rw [he]
    exact List.mem_append_left _ hmem
  simp [segmentScript, createScript, perRes] at hmem'

/-- By then it has read one binding of everybody for each resource. -/
theorem reads_of_left (hr : Reachable call.protocol s) (hleft : 3 < left s 0) :
    s.world.reads = readsUpTo s.world.reads call.nres := by
  obtain ⟨d, hd⟩ := (follows hr).proc 0
  obtain ⟨e, rfl, he⟩ := root_queried hr hleft hd.split
  have hshared := congrArg Prod.snd (hd.shared rfl)
  rw [replay_append, replay_root] at hshared
  refine hshared.trans (Eq.trans ?_
    (reads_queried call s.world.reads (d := pathScript) (by simp [pathScript])))
  refine foldl_advance_keep (fun x : Local × Shared n => x.2.2) fun i hi y => ?_
  cases i with
  | act a =>
    rw [advance, reference_act_root]
    exact (rootAct_frame a y).reads fun rid r h => he rid r (by simpa [h] using hi)
  | coll c => rfl

omit [NeZero n] in
/-- What is in front of an entry has been executed when the entry comes up. -/
theorem subset_of_notMem {xs ys d rest : List (Instr (Act n) Coll)} {i : Instr (Act n) Coll}
    (h : xs ++ ys = d ++ i :: rest) (hi : i ∉ xs) : xs ⊆ d := by
  rcases List.append_eq_append_iff.mp h with ⟨as, rfl, -⟩ | ⟨bs, rfl, hrest⟩
  · exact List.subset_append_left _ _
  · cases bs with
    | nil => exact fun x hx => by rwa [List.append_nil] at hx
    | cons b bs =>
      obtain ⟨rfl, -⟩ := List.cons.inj hrest
      exact absurd (List.mem_append_right _ List.mem_cons_self) hi

/-- Process 0 writes to a segment only after it has made it. -/
theorem created_of_writes (hr : Reachable call.protocol s) {a : Act n}
    {rest d : List (Instr (Act n) Coll)} {loc : Local}
    (hp : s.proc 0 = ⟨.act a :: rest, false, loc, none⟩) (hwrite : a.writes)
    (hd : call.protocol.script 0 = d ++ (s.proc 0).todo) :
    ∀ b ∈ createScript, .act (.sm b) ∈ d := by
  have hplace : rootPlace a (left s 0) :=
    hr.place call.colls_script placed_root (by rw [hp])
  have hleft : left s 0 = 4 := by
    cases a with
    | writeHeader | writeRow k => exact hplace
    | _ => exact hwrite.elim
  obtain ⟨e, rfl, -⟩ := root_queried hr (by omega) hd
  let create : List (Instr (Act n) Coll) := createScript.map (.act ∘ .sm)
  have hscript : create ++ (.act .writeHeader :: (call.perRes .writeRow).map .act ++
      [.coll .smBarrier, .coll .smBarrier, .act (.sm .unlink), .act .decide]) =
        e ++ .act a :: rest := by
    rw [script_root, publishScript_smSegLen, segmentScript, hp] at hd
    simpa [create] using hd
  have hnot : .act a ∉ create := by
    intro hmem
    obtain ⟨b, -, hb⟩ := List.mem_map.mp hmem
    obtain rfl : Act.sm b = a := by simpa using hb
    exact hwrite
  exact fun b hb => List.mem_append_right _ (List.mem_cons_of_mem _
    (subset_of_notMem hscript hnot (List.mem_map_of_mem hb)))

/-- So its length was positive. -/
theorem segLen_pos_of_writes (hr : Reachable call.protocol s) {a : Act n}
    {rest : List (Instr (Act n) Coll)} {loc : Local}
    (hp : s.proc 0 = ⟨.act a :: rest, false, loc, none⟩) (hwrite : a.writes) :
    0 < call.segLen (call.rowsSeen s.world.reads).flatten.length := by
  obtain ⟨d, hd⟩ := (follows hr).proc 0
  have hmade := created_of_writes hr hp hwrite hd.split
  have halive (b : Sm.Act) (hb : b ∈ createScript) :
      call.lacks (call.rowsSeen s.world.reads) (.sm b : Act n) = false := by
    have hok := hd.succeeds _ (hmade b hb)
    simp only [reference, failsFor, decide_true, Bool.true_and, Bool.or_eq_false_iff] at hok
    exact hok.2
  have htrunc := halive .ftruncate (by simp [createScript])
  have hmmap := halive .mmap (by simp [createScript])
  by_contra hle
  rcases call.lacks_create_iff.mpr (not_lt.mp hle) with h | h
  · rw [htrunc] at h
    exact Bool.noConfusion h
  · rw [hmmap] at h
    exact Bool.noConfusion h

/-! ## Which steps fail -/

omit [NeZero n] in
/-- The length of the segment does not matter before it is broadcast. -/
theorem lacks_of_place {rows : List (List Int)} {a : Act n} {k : Nat} (ha : rootPlace a k)
    (hk : k ≤ 3) : call.lacks rows a = false := by
  cases a with
  | sm b =>
    cases b with
    | ftruncate | mmap =>
      simp only [rootPlace] at ha
      omega
    | _ => rfl
  | writeHeader | writeRow k =>
    simp only [rootPlace] at ha
    omega
  | _ => rfl

/-- Where the segment is long enough whenever process 0 gets to use it, a step fails exactly
when its allocation or system call does, or it is dead, as long as there are collectives to
come. -/
theorem determined_of (h : ∀ s a, Reachable call.protocol s → rootPlace a (left s 0) →
      call.lacks (call.rowsSeen s.world.reads) a = false) :
    Determined call.protocol call.fails := by
  intro s p a rest loc hr hp hmore
  rw [exec_isOk hr hp]
  · by_cases hp₀ : p = 0
    · subst hp₀
      have hplace : rootPlace a (left s 0) :=
        hr.place call.colls_script placed_root (by rw [hp])
      simp [failsFor, h s a hr hplace]
    · rw [failsFor_peer hp₀]
  · rintro rfl
    exact hmore (colls_decide hr hp)

/-- Which steps fail is known beforehand if the segment is long enough for all bindings. -/
theorem Roomy.determined (h : call.Roomy) : Determined call.protocol call.fails :=
  determined_of fun _ a _ _ => h.lacks (length_rowsSeen_flatten_le _) a

end LibQuo.AutoDistrib.Call
