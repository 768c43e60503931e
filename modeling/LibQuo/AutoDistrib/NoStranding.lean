import LibQuo.AutoDistrib.Held
import LibQuo.AutoDistrib.Outcome

/-!
Which local failures inside the call strand the other processes: all that do not
take every process out of it at the same collective. A copy that goes out of the segment
makes process 0 crash: it does not return.
-/

namespace LibQuo.AutoDistrib.Call
open CMem Sm Spmd

variable {n : Nat} [NeZero n] (call : Call n)

/-- `q` waits inside a collective, and `p` has returned an error code without having
entered the matching one. -/
def Abandoned (s : Group n (Act n) Coll Local (World n) Msg (Halt Int)) (p q : Fin n) : Prop :=
  StrandedBy call.protocol s p q ∧ ∃ c, (s.proc p).failed = some (.code c)

def NeverAbandons : Prop := ∀ s, Reachable call.protocol s → ∀ p q, ¬call.Abandoned s p q

/-- Some allocation or system call of the steps `as` fails on `p`. -/
def someFault (p : Fin n) (as : List (Act n)) : Bool := as.any fun a => (call.fault p a).isSome

/-- `p` cannot allocate the path it is to receive. -/
def failsResult (p : Fin n) : Bool := p ≠ 0 && call.someFault p [.xchg .callocResult]

/-- `p` fails between the broadcast of the path and that of the length. -/
def failsTable (p : Fin n) : Bool :=
  call.someFault p ([.smConstruct, .callocNranks, .callocRankIds] ++
    if p = 0 then call.queries else [])

/-- `p` fails to create the segment, or to attach to it. -/
def failsSegment (p : Fin n) : Bool :=
  call.someFault p ((if p = 0 then createScript else attachScript).map .sm)

/-- Process 0 does not come to know the length of the segment: the bound is not positive, or
there is no resource, or no path name, or process 0 fails before. -/
def Quits : Prop :=
  call.maxQids ≤ 0 ∨ call.nres = 0 ∨ call.segName.isOk = false ∨ call.failsTable 0 = true

/-- The call gets to exchange a path. -/
structure Begins : Prop where
  max : ¬call.maxQids ≤ 0
  res : ¬call.nres = 0
  name : ¬call.segName.isOk = false

/-- Nobody waits for a process that has returned: the bound is not positive, or there is no
resource, or no path name; or the length of the segment is positive whatever the bindings are,
and nobody fails up to the last barrier; or everybody fails between the broadcast of the path
and that of the length. -/
def InStep : Prop :=
  call.maxQids ≤ 0 ∨ call.nres = 0 ∨ call.segName.isOk = false ∨
    (call.SegLenPos ∧ ∀ p,
      call.failsResult p = false ∧ call.failsTable p = false ∧ call.failsSegment p = false) ∨
    ∀ p, call.failsResult p = false ∧ call.failsTable p = true

variable {call}

omit [NeZero n] in
theorem any_fails {p : Fin n} {as : List (Act n)} (hd : ∀ a ∈ as, call.dead a = false) :
    as.any (call.fails p) = call.someFault p as := by
  rw [Bool.eq_iff_iff, someFault, List.any_eq_true, List.any_eq_true]
  refine exists_congr fun a => and_congr_right fun ha => ?_
  simp [fails, hd a ha]

omit [NeZero n] in
theorem exits_acts {p : Fin n} {as : List (Act n)} {xs : List (Instr (Act n) Coll)}
    (hd : ∀ a ∈ as, call.dead a = false) :
    exits (call.fails p) (as.map .act ++ xs) =
      if call.someFault p as then 0 else exits (call.fails p) xs := by
  rw [Spmd.exits_acts, any_fails hd]

omit [NeZero n] in
theorem someFault_append {p : Fin n} {as bs : List (Act n)} (h : ∀ b ∈ bs, b.failsWith = []) :
    call.someFault p (as ++ bs) = call.someFault p as := by
  have hbs : call.someFault p bs = false := by
    rw [someFault, List.any_eq_false]
    intro b hb
    simp [fault_eq_none (h b hb)]
  simp only [someFault, List.any_append] at hbs ⊢
  rw [hbs, Bool.or_false]

/-- The steps of process 0 between the broadcasts of the path and of the length. -/
def rootTable (call : Call n) : List (Act n) :=
  [.smConstruct, .callocNranks, .callocRankIds] ++ call.queries ++ [.sumSegLen]

def rootSegment (call : Call n) : List (Act n) :=
  createScript.map .sm ++ .writeHeader :: call.perRes .writeRow

omit [NeZero n] in
/-- The script of process 0, cut at the groups of steps that can fail. -/
theorem rootScript_parts : call.rootScript = ([
      [.act .entry, .coll .smBarrier, .act .nobjsByType, .act (.xchg .getSegmentName),
        .coll (.xchg .plen), .act (.xchg .checkPlen), .coll (.xchg .result)],
      call.rootTable.map .act,
      [.coll .smSegLen],
      call.rootSegment.map .act,
      [.coll .smBarrier, .coll .smBarrier, .act (.sm .unlink), .act .decide]] :
    List (List (Instr (Act n) Coll))).flatten := by
  simp [rootScript, publishScript, tableScript, segmentScript, UniqPath.rootScript, lift,
    rootTable, rootSegment]

omit [NeZero n] in
/-- The script of another process, cut at the groups of steps that can fail. -/
theorem peerScript_parts : call.peerScript = ([
      [.act .entry, .coll .smBarrier, .act .nobjsByType, .coll (.xchg .plen),
        .act (.xchg .checkPlen)],
      List.map .act [.xchg .callocResult],
      [.coll (.xchg .result)],
      List.map .act [.smConstruct, .callocNranks, .callocRankIds],
      [.coll .smSegLen, .coll .smBarrier],
      List.map .act (attachScript.map .sm),
      [.coll .smBarrier],
      List.map .act (.readHeader :: call.perRes .readRow ++ [.decide])] :
    List (List (Instr (Act n) Coll))).flatten := by
  simp [peerScript, readScript, awaitScript, UniqPath.peerScript, lift, attachScript]

theorem someFault_rootTable : call.someFault 0 call.rootTable = call.failsTable 0 := by
  rw [rootTable, someFault_append (by simp [Act.failsWith]), failsTable, if_pos rfl]

omit [NeZero n] in
theorem dead_rootTable : ∀ a ∈ call.rootTable, call.dead a = false := by
  simp [rootTable, dead, forall_mem_queries, or_imp, forall_and]

/-- How many collectives a process enters that has a path name, for where it fails. -/
def exitAt (root result table segment : Bool) : Nat :=
  if result then 2 else if table then 3 else if segment then (if root then 4 else 5) else 6

theorem exitAt_eq_three : ∀ {root result table segment : Bool},
    exitAt root result table segment = 3 ↔ result = false ∧ table = true := by decide

theorem exitAt_eq_six : ∀ {root result table segment : Bool},
    exitAt root result table segment = 6 ↔ result = false ∧ table = false ∧ segment = false := by
  decide

theorem exitAt_peer : ∀ {result table segment : Bool},
    exitAt false result table segment ≠ 4 := by decide

omit [NeZero n] in
theorem fails_entry (p : Fin n) : call.fails p .entry = (call.maxQids ≤ 0 : Bool) :=
  fails_of_sound rfl

omit [NeZero n] in
theorem fails_nobjsByType (p : Fin n) : call.fails p .nobjsByType = (call.nres == 0) :=
  fails_of_sound rfl

omit [NeZero n] in
theorem fails_getSegmentName (p : Fin n) : call.fails p (.xchg .getSegmentName) = false :=
  fails_of_sound rfl

omit [NeZero n] in
theorem fails_checkPlen (p : Fin n) : call.fails p (.xchg .checkPlen) = !call.segName.isOk :=
  fails_of_sound rfl

theorem failsResult_root : call.failsResult 0 = false := by simp [failsResult]

theorem exits_root (hmax : ¬call.maxQids ≤ 0) : exits (call.fails 0) call.rootScript =
    if call.nres = 0 then 1
    else if call.segName.isOk = false then 2
    else exitAt true (call.failsResult 0) (call.failsTable 0) (call.failsSegment 0) := by
  have hsegment : call.someFault 0 call.rootSegment = call.failsSegment 0 := by
    rw [rootSegment, someFault_append (by simp [Act.failsWith, forall_mem_perRes]), failsSegment,
      if_pos rfl]
  have hunlink : call.fails 0 (.sm .unlink) = false := fails_of_sound rfl
  have hdecide : call.fails 0 .decide = false := fails_of_sound rfl
  rw [rootScript_parts]
  simp only [List.flatten_cons, List.flatten_nil, List.append_nil, List.cons_append,
    List.nil_append, exits, fails_entry, fails_nobjsByType, fails_getSegmentName, fails_checkPlen,
    decide_eq_false hmax]
  rw [exits_acts dead_rootTable, someFault_rootTable]
  simp only [exits]
  rw [exits_acts (by simp [rootSegment, createScript, dead, or_imp, forall_and,
    forall_mem_perRes]), hsegment]
  simp only [exits, hunlink, hdecide, failsResult_root]
  by_cases hn : call.nres = 0
  · simp [hn]
  · by_cases hk : call.segName.isOk = true
    · simp only [hn, hk, beq_iff_eq, if_false, Bool.not_true]
      cases call.failsTable 0 <;> cases call.failsSegment 0 <;> simp [exitAt]
    · simp [hn, hk]

theorem exits_peer (hmax : ¬call.maxQids ≤ 0) {p : Fin n} (hp : p ≠ 0) :
    exits (call.fails p) call.peerScript =
      if call.nres = 0 then 1
      else if call.segName.isOk = false then 2
      else exitAt false (call.failsResult p) (call.failsTable p) (call.failsSegment p) := by
  have hresult : call.someFault p [.xchg .callocResult] = call.failsResult p := by
    simp [failsResult, hp]
  have htable : call.someFault p [.smConstruct, .callocNranks, .callocRankIds] =
      call.failsTable p := by simp [failsTable, hp]
  have hsegment : call.someFault p (attachScript.map .sm) = call.failsSegment p := by
    simp [failsSegment, hp]
  rw [peerScript_parts]
  simp only [List.flatten_cons, List.flatten_nil, List.append_nil, List.cons_append,
    List.nil_append, exits, fails_entry, fails_nobjsByType, fails_checkPlen,
    decide_eq_false hmax]
  rw [exits_acts (by simp [dead]), hresult]
  simp only [exits]
  rw [exits_acts (by simp [dead]), htable]
  simp only [exits]
  rw [exits_acts (by simp [attachScript, dead]), hsegment]
  simp only [exits]
  rw [exits_eq_zero _ (colls_acts _)]
  by_cases hn : call.nres = 0
  · simp [hn]
  · by_cases hk : call.segName.isOk = true
    · simp only [hn, hk, beq_iff_eq, if_false, Bool.not_true]
      cases call.failsResult p <;> cases call.failsTable p <;> cases call.failsSegment p <;>
        simp [exitAt]
    · simp [hn, hk]

/-- How many collectives each process enters, if the segment is long enough. -/
theorem exits_script (p : Fin n) : exits (call.fails p) (call.protocol.script p) =
    if call.maxQids ≤ 0 then 0
    else if call.nres = 0 then 1
    else if call.segName.isOk = false then 2
    else exitAt (p = 0) (call.failsResult p) (call.failsTable p) (call.failsSegment p) := by
  by_cases hmax : call.maxQids ≤ 0
  · obtain ⟨rest, hrest, -⟩ := call.script_entry p
    rw [hrest, if_pos hmax]
    simp [exits, fails_entry, hmax]
  rw [if_neg hmax]
  by_cases hp : p = 0
  · subst hp
    have hscript : call.protocol.script 0 = call.rootScript := by simp [protocol]
    rw [hscript, exits_root hmax, decide_eq_true rfl]
  · have hscript : call.protocol.script p = call.peerScript := by simp [protocol, hp]
    rw [hscript, exits_peer hmax hp, decide_eq_false hp]

/-! ## Where the length of the segment matters -/

omit [NeZero n] in
theorem tableScript_acts : call.tableScript = call.rootTable.map .act := by
  simp [tableScript, rootTable]

/-- Process 0 quits where a step fails in front of the broadcast of the length. -/
theorem quits_iff : call.Quits ↔
    ∃ a, .act a ∈ pathScript ++ call.tableScript ∧ call.fails 0 a = true := by
  have hany := any_fails (p := 0) (call.dead_rootTable)
  rw [someFault_rootTable] at hany
  rw [Quits, ← hany, List.any_eq_true, tableScript_acts]
  simp only [pathScript, List.mem_append, List.mem_cons, List.mem_map, Instr.act.injEq,
    reduceCtorEq, List.not_mem_nil, or_false, false_or, exists_eq_right, or_and_right, exists_or,
    exists_eq_left, fails_entry, fails_nobjsByType, fails_getSegmentName, fails_checkPlen,
    or_assoc]
  simp

/-- Process 0 that quits never gets to the segment. -/
theorem Quits.determined (h : call.Quits) : Determined call.protocol call.fails := by
  refine determined_of fun s a hr hplace => ?_
  by_cases hleft : 3 < left s 0
  · obtain ⟨d, hd⟩ := (follows hr).proc 0
    obtain ⟨e, rfl, -⟩ := root_queried hr hleft hd.split
    obtain ⟨b, hb, hfails⟩ := quits_iff.mp h
    have hok := hd.succeeds b (List.mem_append_left _ hb)
    simp [reference, failsFor, hfails] at hok
  · exact lacks_of_place hplace (not_lt.mp hleft)

/-- Nobody is abandoned where process 0 quits and all leave at the same collective. -/
theorem Quits.neverAbandons (h : call.Quits)
    (heq : ∀ p q, exits (call.fails p) (call.protocol.script p) =
      exits (call.fails q) (call.protocol.script q)) : call.NeverAbandons :=
  fun s hr p q hleft => h.determined.not_strandedBy call.colls_script heq s hr p q hleft.1

/-- How many collectives a process enters if the call gets to exchange a path, and the segment
is long enough. -/
theorem Begins.exits_eq (h : call.Begins) (p : Fin n) :
    exits (call.fails p) (call.protocol.script p) =
      exitAt (p = 0) (call.failsResult p) (call.failsTable p) (call.failsSegment p) := by
  rw [exits_script, if_neg h.max, if_neg h.res, if_neg h.name]

/-- If it does not, all leave it together. -/
theorem exits_of_not_begins (hbegins : ¬call.Begins) (p q : Fin n) :
    exits (call.fails p) (call.protocol.script p) =
      exits (call.fails q) (call.protocol.script q) := by
  rw [exits_script, exits_script]
  by_cases hmax : call.maxQids ≤ 0
  · rw [if_pos hmax, if_pos hmax]
  by_cases hres : call.nres = 0
  · rw [if_neg hmax, if_neg hmax, if_pos hres, if_pos hres]
  by_cases hname : call.segName.isOk = false
  · rw [if_neg hmax, if_neg hmax, if_neg hres, if_neg hres, if_pos hname, if_pos hname]
  · exact absurd ⟨hmax, hres, hname⟩ hbegins

/-- How many collectives process 0 enters if the segment cannot be made. -/
theorem Begins.exits_short (h : call.Begins) {rows : List (List Int)}
    (hshort : call.segLen rows.flatten.length ≤ 0) :
    exits (call.failsFor rows 0) (call.protocol.script 0) =
      if call.failsTable 0 then 3 else 4 := by
  have hscript : call.protocol.script 0 = pathScript ++ (call.rootTable.map .act ++
      (.coll .smSegLen :: (call.rootSegment.map .act ++ [.coll .smBarrier, .coll .smBarrier,
        .act (.sm .unlink), .act .decide]))) := by
    rw [script_root, publishScript_smSegLen, tableScript_acts]
    simp [segmentScript, rootSegment]
  have hpath : ∀ a, .act a ∈ (pathScript : List (Instr (Act n) Coll)) →
      call.failsFor rows 0 a = false := by
    have hnobjs := h.res
    have hname := h.name
    have hmax := h.max
    simp only [pathScript, List.mem_cons, List.not_mem_nil, or_false, Instr.act.injEq,
      reduceCtorEq, false_or]
    rintro a (rfl | rfl | rfl | rfl)
    all_goals
      rw [failsFor, fails_of_sound rfl]
      simp_all [dead, lacks]
  have htable : call.rootTable.any (call.failsFor rows 0) = call.failsTable 0 := by
    rw [← someFault_rootTable, ← any_fails dead_rootTable]
    have hlacks : ∀ a ∈ call.rootTable, call.lacks rows a = false := by
      simp [rootTable, lacks, forall_mem_queries, or_imp, forall_and]
    rw [Bool.eq_iff_iff, List.any_eq_true, List.any_eq_true]
    refine exists_congr fun a => and_congr_right fun ha => ?_
    simp [failsFor, hlacks a ha]
  have hsegment : call.rootSegment.any (call.failsFor rows 0) = true := by
    rw [List.any_eq_true]
    rcases call.lacks_create_iff.mpr hshort with hl | hl
    · exact ⟨.sm .ftruncate, by simp [rootSegment, createScript], by simp [failsFor, hl]⟩
    · exact ⟨.sm .mmap, by simp [rootSegment, createScript], by simp [failsFor, hl]⟩
  rw [hscript, exits_append _ hpath, Spmd.exits_acts, htable, Spmd.exits, Spmd.exits_acts,
    if_pos hsegment]
  cases call.failsTable 0 <;> rfl

/-- And if it is long enough. -/
theorem Begins.exits_room (h : call.Begins) {rows : List (List Int)}
    (hroom : ∀ a : Act n, call.lacks rows a = false) :
    exits (call.failsFor rows 0) (call.protocol.script 0) =
      exitAt true false (call.failsTable 0) (call.failsSegment 0) := by
  have hfails : call.failsFor rows 0 = call.fails 0 := by
    funext a
    simp [failsFor, hroom]
  rw [hfails, h.exits_eq, failsResult_root, decide_eq_true rfl]

/-- The segment makes no difference to how many collectives the others enter. -/
theorem Begins.exits_peer (h : call.Begins) (rows : List (List Int)) {p : Fin n} (hp : p ≠ 0) :
    exits (call.failsFor rows p) (call.protocol.script p) =
      exitAt false (call.failsResult p) (call.failsTable p) (call.failsSegment p) := by
  rw [funext (failsFor_peer hp), h.exits_eq, decide_eq_false hp]

/-- With such bindings, whoever is stranded is so by a process that has returned. -/
theorem Plain.abandoned {held : Fin n → Cpuset} (hplain : Plain call held)
    {s : Group n (Act n) Coll Local (World n) Msg (Halt Int)}
    (hr : Reachable (call.heldProtocol held) s) {p q : Fin n}
    (hstrand : StrandedBy (call.heldProtocol held) s p q) : call.Abandoned s p q := by
  obtain ⟨e, he⟩ := Option.isSome_iff_exists.mp hstrand.1
  obtain ⟨c, rfl⟩ := hplain.code hr he (hstrand.colls_ne_nil colls_heldProtocol hr)
  exact ⟨hstrand, c, he⟩

/-- So if nobody is abandoned, all leave at the same collective. -/
theorem Plain.exits_eq {held : Fin n → Cpuset} (hplain : Plain call held) (h : call.NeverAbandons)
    (p q : Fin n) : exits (call.failsFor (call.rowsHeld held) p) (call.protocol.script p) =
      exits (call.failsFor (call.rowsHeld held) q) (call.protocol.script q) := by
  refine (held_determined.neverStrands_iff_exits colls_heldProtocol).mp ?_ p q
  exact fun s hr p q hstrand => h s (reachable_of_held hr) p q (hplain.abandoned hr hstrand)

/-- If nobody is abandoned, nobody fails up to the last barrier, or everybody between the
broadcast of the path and that of the length. -/
theorem Begins.inStep (hn : 2 ≤ n) (hbegins : call.Begins) (h : call.NeverAbandons) :
    (call.SegLenPos ∧ ∀ p,
      call.failsResult p = false ∧ call.failsTable p = false ∧ call.failsSegment p = false) ∨
    ∀ p, call.failsResult p = false ∧ call.failsTable p = true := by
  obtain ⟨held, hplain, hheld⟩ := exists_plain call
  have hsame (p : Fin n) (hp : p ≠ 0) :
      exitAt false (call.failsResult p) (call.failsTable p) (call.failsSegment p) =
        exits (call.failsFor (call.rowsHeld held) 0) (call.protocol.script 0) := by
    rw [← hbegins.exits_peer (call.rowsHeld held) hp]
    exact hplain.exits_eq h p 0
  have hone : (⟨1, hn⟩ : Fin n) ≠ 0 := by simp [Fin.ext_iff]
  have hnot : exits (call.failsFor (call.rowsHeld held) 0) (call.protocol.script 0) ≠ 4 := by
    rw [← hsame _ hone]
    exact exitAt_peer
  have hall (htable : call.failsTable 0 = true)
      (h₀ : exits (call.failsFor (call.rowsHeld held) 0) (call.protocol.script 0) = 3)
      (p : Fin n) : call.failsResult p = false ∧ call.failsTable p = true := by
    by_cases hp : p = 0
    · rw [hp]
      exact ⟨failsResult_root, htable⟩
    · exact exitAt_eq_three.mp ((hsame p hp).trans h₀)
  rcases hheld with ⟨hpos, hroom⟩ | ⟨-, hshort⟩
  · rw [hbegins.exits_room hroom] at hsame hnot hall
    cases htable : call.failsTable 0 with
    | true => exact .inr (hall htable (by rw [htable]; rfl))
    | false =>
      have hsegment : call.failsSegment 0 = false := by
        by_contra hne
        rw [Bool.not_eq_false] at hne
        exact hnot (by rw [htable, hne]; rfl)
      refine .inl ⟨hpos, fun p => ?_⟩
      by_cases hp : p = 0
      · rw [hp]
        exact ⟨failsResult_root, htable, hsegment⟩
      · have hsix := hsame p hp
        rw [htable, hsegment] at hsix
        exact exitAt_eq_six.mp hsix
  · rw [hbegins.exits_short hshort] at hnot hall
    have htable : call.failsTable 0 = true := by
      by_contra hne
      exact hnot (if_neg hne)
    exact .inr (hall htable (if_pos htable))

/-! ## When nobody fails -/

/-- The table of process 0 is that of the bindings that the processes have entered with. -/
theorem Stays.rowsSeen {s : Group n (Act n) Coll Local (World n) Msg (Halt Int)}
    (hstay : Stays call) (hr : Reachable call.protocol s) (hleft : 3 < left s 0) :
    ∃ held, call.rowsSeen s.world.reads = call.rowsHeld held := by
  have hreads := reads_of_left hr hleft
  refine ⟨fun p => (s.world.entered p).getD ∅, List.map_congr_left fun rid hrid => ?_⟩
  have hseen : seen s.world.reads rid = fun p => (s.world.entered p).getD ∅ := by
    funext p
    have hmem : (rid, p, seen s.world.reads rid p) ∈ readsUpTo s.world.reads call.nres :=
      (mem_readsUpTo _).mpr ⟨List.mem_range.mp hrid, rfl⟩
    rw [← hreads] at hmem
    rw [hstay.fresh hr _ _ _ hmem]
    rfl
  rw [idsSeen, hseen]

/-- Nobody is abandoned if the segment can be made and nobody fails up to the last barrier:
process 0 may only crash. -/
theorem SegLenPos.neverAbandons (hpos : call.SegLenPos)
    (hexits : ∀ p, exits (call.fails p) (call.protocol.script p) = 6) : call.NeverAbandons := by
  rintro s hr p q ⟨hstrand, c, hc⟩
  obtain ⟨t, a, rest, loc, w, ht, hpt, hx, hps⟩ := hr.failed_in hc
  have hmore : colls rest ≠ [] := by
    have hne := hstrand.colls_ne_nil call.colls_script hr
    simpa [hps, colls] using hne
  obtain ⟨d, hd⟩ := (ht.wf call.colls_script p).suffix
  rw [hpt] at hd
  have hall : exits (call.fails p) (d ++ .act a :: rest) = (colls (d ++ .act a :: rest)).length := by
    rw [hd, hexits, call.colls_script]
    rfl
  have halive := fails_eq_false_of_exits hall hmore
  have hok := exec_isOk ht hpt (by
    rintro rfl
    exact hmore (colls_decide ht hpt))
  have hlacks : p = 0 ∧ call.lacks (call.rowsSeen t.world.reads) a = true := by
    simpa [failsFor, halive, hx, Except.isOk, Except.toBool] using hok
  obtain ⟨rfl, hlacks⟩ := hlacks
  have hplace := ht.place call.colls_script placed_root (a := a) (by rw [hpt])
  have hstay : Stays call := fun s hr _ _ _ p hp hf => left_of_failed hr hp (hexits p) hf
  have hmade (hleft : 3 < left t 0)
      (h : call.lacks (call.rowsSeen t.world.reads) (.sm .ftruncate : Act n) = true ∨
        call.lacks (call.rowsSeen t.world.reads) (.sm .mmap : Act n) = true) : False := by
    obtain ⟨held, hheld⟩ := hstay.rowsSeen ht hleft
    have hle := call.lacks_create_iff.mp h
    rw [hheld] at hle
    exact absurd (hpos held) (not_lt.mpr hle)
  cases a with
  | sm b =>
    simp only [rootPlace] at hplace
    cases b with
    | ftruncate => exact hmade (by omega) (.inl hlacks)
    | mmap => exact hmade (by omega) (.inr hlacks)
    | _ => exact Bool.noConfusion hlacks
  | writeHeader | writeRow k =>
    -- a copy that fails has gone out of the segment
    rw [exec_of_noFault (fault_eq_none rfl)] at hx
    simp only [perform, withBase] at hx
    split at hx
    · simp at hx
    · split at hx <;> simp at hx
  | _ => exact Bool.noConfusion hlacks

/-- **No stranding.** If there are others, nobody waits for a process that has returned
exactly when the processes of the node are in step. -/
theorem neverAbandons_iff_inStep (call : Call n) (hn : 2 ≤ n) :
    call.NeverAbandons ↔ call.InStep := by
  by_cases hbegins : call.Begins
  · constructor
    · exact fun h => .inr (.inr (.inr (hbegins.inStep hn h)))
    · rintro (h | h | h | ⟨hpos, h⟩ | h)
      · exact absurd h hbegins.max
      · exact absurd h hbegins.res
      · exact absurd h hbegins.name
      · exact hpos.neverAbandons fun p => by rw [hbegins.exits_eq, exitAt_eq_six.mpr (h p)]
      · have hquits : call.Quits := .inr (.inr (.inr (h 0).2))
        refine hquits.neverAbandons fun p q => ?_
        rw [hbegins.exits_eq, hbegins.exits_eq, exitAt_eq_three.mpr (h p),
          exitAt_eq_three.mpr (h q)]
  · have hnot : call.maxQids ≤ 0 ∨ call.nres = 0 ∨ call.segName.isOk = false := by
      by_contra hne
      simp only [not_or] at hne
      exact hbegins ⟨hne.1, hne.2.1, hne.2.2⟩
    refine iff_of_true ?_ (hnot.imp_right fun h => h.imp_right .inl)
    exact Quits.neverAbandons (hnot.imp_right fun h => h.imp_right .inl)
      (exits_of_not_begins hbegins)

theorem pairCall_neverAbandons : pairCall.NeverAbandons :=
  (neverAbandons_iff_inStep pairCall le_rfl).mpr
    (.inr (.inr (.inr (.inl ⟨Roomy.segLenPos (by decide), by decide⟩))))

/-- Two processes; the affinity of the first to the only resource cannot be queried. -/
def unqueriedCall : Call 2 where
  nobjs := .ok 1
  objCpuset _ := {0, 1}
  maxQids := 1
  segName := .ok ⟨[47, 117], by decide⟩
  keeps _ := false
  fault p a := if p.val = 0 ∧ a = .qidsQuery 0 p then some .errTopo else none
  fault_mem p a e h := by
    split at h
    · next hpa => simp_all [Act.failsWith]
    · simp at h
  malloc _ _ := true
  binding₀ p := {p.val}

/-- Process 0 has returned, and process 1 waits for the length of the segment. -/
theorem unqueriedCall_abandons : ∃ s, Reachable unqueriedCall.protocol s ∧
    unqueriedCall.Abandoned s 0 1 := by
  have hroom : unqueriedCall.Roomy := by decide
  let held := unqueriedCall.binding₀
  have hlacks : ∀ a : Act 2, unqueriedCall.lacks (unqueriedCall.rowsHeld held) a = false :=
    hroom.lacks (length_rowsHeld_flatten_le _ _)
  have hfails : unqueriedCall.failsFor (unqueriedCall.rowsHeld held) = unqueriedCall.fails := by
    funext p a
    simp [failsFor, hlacks]
  have hdetermined : Determined (unqueriedCall.heldProtocol held) unqueriedCall.fails :=
    hfails ▸ held_determined
  have hexits (p : Fin 2) : exits (unqueriedCall.fails p)
      ((unqueriedCall.heldProtocol held).script p) = if p = 0 then 3 else 6 :=
    (exits_script p).trans (by revert p; decide)
  obtain ⟨s, hr, hstrand⟩ := hdetermined.strands colls_heldProtocol (p := 0) (q := 1)
    (fun r => by rw [hexits, hexits]; revert r; decide) (by rw [hexits, hexits]; decide)
  exact ⟨s, reachable_of_held hr, Plain.abandoned (.inr hlacks) hr hstrand⟩

end LibQuo.AutoDistrib.Call
