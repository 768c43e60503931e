import LibQuo.Create.Setup

/-!
Which local failures inside the creation strand the other processes. Some failures
make the process crash: it does not return, and nobody gets past the next barrier.
-/

namespace LibQuo.Create.Call
open CMem Sm Spmd

variable {n : Nat} [NeZero n] (call : Call n)

/-- `q` waits inside a collective, and `p` has returned an error code without having
entered the matching one. -/
def Abandoned (s : Group n Act Coll Local Files Msg (Halt Int)) (p q : Fin n) : Prop :=
  StrandedBy call.protocol s p q ∧ ∃ c, (s.proc p).failed = some (.code c)

def NeverAbandons : Prop := ∀ s, Reachable call.protocol s → ∀ p q, ¬call.Abandoned s p q

omit [NeZero n] in
def fails (p : Fin n) (a : Act) : Bool := (call.fault p a).isSome || call.dead a

/-- `p` cannot allocate the first path it is to receive. -/
def failsResult (p : Fin n) : Bool := p ≠ 0 && call.fails p (.xchg .bseg .callocResult)

/-- What `p` does to the segment of the barrier. -/
def barrierSteps (p : Fin n) : List Act :=
  if p = 0 then createScript.map (.sm .bseg) ++ [.ptmcInit] else attachScript.map (.sm .bseg)

/-- `p` fails to set up the barrier, or to attach to it. -/
def failsBarrier (p : Fin n) : Bool := (barrierSteps p).any (call.fails p)

/-- `p` has no second path, which it cannot clean up behind. -/
def failsPath (p : Fin n) : Bool :=
  call.fails p (.xchg .htopo .checkPlen) || p ≠ 0 && call.fails p (.xchg .htopo .callocResult)

/-- `p` crashes: it gets no second path, or no topology to load. -/
def crashes (p : Fin n) : Bool := call.failsPath p || call.fails p .topologyInit

/-- Process 0 fails to load its topology, or to export it. -/
def failsTopology : Bool := [Act.topoLoad, .exportXmlbuffer].any (call.fails 0)

/-- What `p` does to the segment of the topology. -/
def topologySteps (p : Fin n) : List Act :=
  if p = 0 then createScript.map (.sm .htopo) ++ [.copyXml] else attachScript.map (.sm .htopo)

/-- `p` fails to share the topology, or to attach to it. -/
def failsSegment (p : Fin n) : Bool := (topologySteps p).any (call.fails p)

/-- Nobody waits for a process that has returned: there is no first path; or nobody fails
before the second one is exchanged, and either process 0 crashes, or all others do, or
process 0 shares its topology and somebody crashes or nobody fails to attach. -/
def InStep : Prop :=
  (call.segName .bseg).isOk = false ∨
    (∀ p, call.failsResult p = false ∧ call.failsBarrier p = false) ∧
      (call.crashes 0 = true ∨ (∀ p, p ≠ 0 → call.crashes p = true) ∨
        call.failsTopology = false ∧ call.failsSegment 0 = false ∧
          ((∃ p, call.crashes p = true) ∨ ∀ p, call.failsSegment p = false))

instance : Decidable call.InStep := inferInstanceAs (Decidable (_ ∨ _ ∧ (_ ∨ _ ∨ _ ∧ _ ∧ (_ ∨ _))))

variable {call} {p : Fin n}

theorem publication_fails (p : Fin n) (a : Act) : call.publication.fails p a = call.fails p a := by
  simp [Publication.fails, publication, fails]

omit [NeZero n] in
theorem fails_of_sound {a : Act} (h : a.failsWith = []) : call.fails p a = call.dead a := by
  cases hf : call.fault p a with
  | none => simp [fails, hf]
  | some e => simpa [h] using call.fault_mem p a e hf

omit [NeZero n] in
theorem fails_checkPlen (m : Module) :
    call.fails p (.xchg m .checkPlen) = !(call.segName m).isOk := fails_of_sound rfl

/-- The script of process 0, cut at the groups of steps that can fail. -/
theorem rootScript_parts : rootScript = ([
      [.act (.xchg .bseg .getSegmentName), .coll (.xchg .bseg .plen),
        .act (.xchg .bseg .checkPlen), .coll (.xchg .bseg .result)],
      (barrierSteps (0 : Fin n)).map .act,
      [.coll .mpiBarrier, .coll .mpiBarrier, .act (.sm .bseg .unlink),
        .act (.xchg .htopo .getSegmentName), .coll (.xchg .htopo .plen),
        .act (.xchg .htopo .checkPlen), .coll (.xchg .htopo .result), .act .topologyInit],
      List.map .act [.topoLoad, .exportXmlbuffer],
      [.coll .topoXmlLen],
      (topologySteps (0 : Fin n)).map .act,
      [.coll .smBarrier, .coll .smBarrier],
      List.map .act [.sm .htopo .unlink, .initCachedAttrs]] :
    List (List (Instr Act Coll))).flatten := by
  simp [rootScript, topologyScript, barrierScript, UniqPath.rootScript, lift, barrierSteps,
    topologySteps, createScript]

/-- How many collectives process 0 enters. -/
theorem exits_root : exits (call.fails 0) rootScript =
    if (call.segName .bseg).isOk = false then 1
    else if call.failsBarrier 0 then 2
    else if call.failsPath 0 then 5
    else if call.fails 0 .topologyInit || call.failsTopology then 6
    else if call.failsSegment 0 then 7 else 9 := by
  have hname₁ : call.fails 0 (.xchg .bseg .getSegmentName) = false := fails_of_sound rfl
  have hname₂ : call.fails 0 (.xchg .htopo .getSegmentName) = false := fails_of_sound rfl
  have hunlink : call.fails 0 (.sm .bseg .unlink) = false := fails_of_sound rfl
  rw [rootScript_parts (n := n)]
  simp only [List.flatten_cons, List.flatten_nil, List.append_nil, List.cons_append,
    List.nil_append, exits, hname₁, fails_checkPlen]
  rw [exits_acts, ← failsBarrier]
  simp only [exits, hunlink, hname₂]
  rw [exits_acts, ← failsTopology]
  simp only [exits]
  rw [exits_acts, ← failsSegment]
  simp only [exits]
  rw [exits_eq_zero _ (colls_acts _)]
  simp only [failsPath, fails_checkPlen, ne_eq, not_true_eq_false, decide_false, Bool.false_and,
    Bool.or_false]
  generalize (call.segName .bseg).isOk = bseg, call.failsBarrier 0 = barrier,
    (call.segName .htopo).isOk = htopo, call.fails 0 .topologyInit = init,
    call.failsTopology = topology, call.failsSegment 0 = segment
  revert bseg barrier htopo init topology segment
  decide

/-- The script of another process, cut at the groups of steps that can fail. -/
theorem peerScript_parts (hp : p ≠ 0) : peerScript = ([
      [.coll (.xchg .bseg .plen), .act (.xchg .bseg .checkPlen),
        .act (.xchg .bseg .callocResult), .coll (.xchg .bseg .result), .coll .mpiBarrier],
      (barrierSteps p).map .act,
      [.coll .mpiBarrier, .coll (.xchg .htopo .plen), .act (.xchg .htopo .checkPlen),
        .act (.xchg .htopo .callocResult), .coll (.xchg .htopo .result), .act .topologyInit,
        .coll .topoXmlLen, .coll .smBarrier],
      (topologySteps p).map .act,
      [.coll .smBarrier],
      List.map .act [.setXmlbuffer, .topoLoad, .initCachedAttrs]] :
    List (List (Instr Act Coll))).flatten := by
  simp [peerScript, UniqPath.peerScript, lift, barrierSteps, topologySteps, attachScript, hp]

/-- How many collectives the others enter. -/
theorem exits_peer (hp : p ≠ 0) : exits (call.fails p) peerScript =
    if (call.segName .bseg).isOk = false then 1
    else if call.failsResult p then 1
    else if call.failsBarrier p then 3
    else if call.failsPath p then 5
    else if call.fails p .topologyInit then 6
    else if call.failsSegment p then 8 else 9 := by
  rw [peerScript_parts hp]
  simp only [List.flatten_cons, List.flatten_nil, List.append_nil, List.cons_append,
    List.nil_append, exits, fails_checkPlen]
  rw [exits_acts, ← failsBarrier]
  simp only [exits]
  rw [fails_checkPlen, exits_acts, ← failsSegment]
  simp only [exits]
  rw [exits_eq_zero _ (colls_acts _)]
  simp only [failsResult, failsPath, fails_checkPlen, ne_eq, hp, not_false_eq_true, decide_true,
    Bool.true_and]
  generalize (call.segName .bseg).isOk = bseg, call.fails p (.xchg .bseg .callocResult) = result,
    call.failsBarrier p = barrier, (call.segName .htopo).isOk = htopo,
    call.fails p (.xchg .htopo .callocResult) = path, call.fails p .topologyInit = init,
    call.failsSegment p = segment
  revert bseg result barrier htopo path init segment
  decide

/-! ## Who returns -/

/-- Up to where a failure makes the process crash. -/
def earlyScript (p : Fin n) : List (Instr Act Coll) :=
  if p = 0 then
    barrierScript ++ [.coll .mpiBarrier, .coll .mpiBarrier, .act (.sm .bseg .unlink)] ++
    UniqPath.rootScript.map (lift (.xchg .htopo) (.xchg .htopo)) ++ [.act .topologyInit]
  else
    UniqPath.peerScript.map (lift (.xchg .bseg) (.xchg .bseg)) ++ [.coll .mpiBarrier] ++
    attachScript.map (.act ∘ .sm .bseg) ++ [.coll .mpiBarrier] ++
    UniqPath.peerScript.map (lift (.xchg .htopo) (.xchg .htopo)) ++ [.act .topologyInit]

theorem earlyScript_begins (p : Fin n) : earlyScript p <+: call.protocol.script p := by
  by_cases hp : p = 0
  · subst hp
    simp [script_root, earlyScript, rootScript, topologyScript]
  · simp [script_peer call hp, earlyScript, hp, peerScript]

/-- A step behind which the process crashes if it fails. -/
def Fatal (a : Act) : Prop := a = .topologyInit ∨ ∃ b, a = .xchg .htopo b

omit [NeZero n] in
theorem not_fatal_of_bail {a : Act} {e : Halt Int} {c : Int} (h : a.bail e = .code c) :
    ¬Fatal a := by
  rintro (rfl | ⟨b, rfl⟩) <;> simp [Act.bail] at h

theorem not_fatal_of_perform {a : Act} {loc : Local} {fs : Files} {c : Int}
    (h : (call.perform p a loc fs).1 = .error (.code c)) : ¬Fatal a := by
  rintro (rfl | ⟨b, rfl⟩)
  · simp [perform] at h
  · simp only [perform] at h
    split at h
    · cases hx : UniqPath.execRoot (call.segName .htopo) b (loc.path .htopo) with
      | ok x => simp [hx, Except.map, Except.mapError] at h
      | error e => simp [hx, Except.map, Except.mapError, Act.bail] at h
    · cases hx : UniqPath.execPeer b (loc.path .htopo) with
      | ok x => simp [hx, Except.map, Except.mapError] at h
      | error e => simp [hx, Except.map, Except.mapError, Act.bail] at h

theorem prefix_of_append {α : Type} {xs d rest pre : List α} {a : α} (h : xs = d ++ a :: rest)
    (hpre : pre <+: xs) (ha : a ∉ pre) : pre <+: d := by
  have hd : d ++ [a] <+: xs := ⟨rest, by simp [h]⟩
  rcases List.prefix_or_prefix_of_prefix hd hpre with hle | hle
  · exact absurd (hle.subset (by simp)) ha
  · rcases List.prefix_concat_iff.mp hle with heq | hle
    · exact absurd (by simp [heq]) ha
    · exact hle

/-- Nothing fails on `p` up to the exchange of the second path. -/
structure Starts (call : Call n) (p : Fin n) : Prop where
  segName : (call.segName .bseg).isOk = true
  result : call.failsResult p = false
  barrier : call.failsBarrier p = false

theorem Starts.fails_eq_false (h : Starts call p) {a : Act} (ha : .act a ∈ earlyScript p)
    (hfatal : ¬Fatal a) : call.fails p a = false := by
  have hbarrier : ∀ a ∈ barrierSteps p, call.fails p a = false := by
    have := h.barrier
    rw [failsBarrier, List.any_eq_false] at this
    simpa using this
  have hcheck : call.fails p (.xchg .bseg .checkPlen) = false := by
    rw [fails_checkPlen, h.segName]
    rfl
  have hname : call.fails p (.xchg .bseg .getSegmentName) = false := fails_of_sound rfl
  have hunlink : call.fails p (.sm .bseg .unlink) = false := fails_of_sound rfl
  have hxchg : ∀ b, a ≠ .xchg .htopo b := fun b hb => hfatal (.inr ⟨b, hb⟩)
  have hinit : a ≠ .topologyInit := fun hb => hfatal (.inl hb)
  by_cases hp : p = 0
  · subst hp
    simp [earlyScript, barrierScript, UniqPath.rootScript, createScript, lift, hxchg, hinit] at ha
    rcases ha with rfl | rfl | ha | ha | ha | ha | ha | rfl
    · exact hname
    · exact hcheck
    all_goals first
      | exact hunlink
      | exact hbarrier a (by simp [ha, barrierSteps, createScript])
  · have hresult : call.fails p (.xchg .bseg .callocResult) = false := by
      simpa [failsResult, hp] using h.result
    simp [earlyScript, hp, UniqPath.peerScript, attachScript, lift, hxchg, hinit] at ha
    rcases ha with rfl | rfl | ha | ha | ha
    · exact hcheck
    · exact hresult
    all_goals exact hbarrier a (by simp [ha, hp, barrierSteps, attachScript])

/-- Who returns an error code has not crashed before. -/
theorem not_crashes_of_returned {s : Group n Act Coll Local Files Msg (Halt Int)} {c : Int}
    (hr : Reachable call.protocol s) (hs : Starts call p)
    (hp : (s.proc p).failed = some (.code c)) : call.crashes p = false := by
  obtain ⟨d, a, rest, hsplit, -, hd, ha, herr⟩ := (sound call).stopped call.colls_script hr hp
  have hfatal : ¬Fatal a := by
    rcases herr with hfault | ⟨-, loc, fs, hperform⟩
    · simp only [publication, Option.map_eq_some_iff] at hfault
      obtain ⟨e, -, hbail⟩ := hfault
      exact not_fatal_of_bail hbail
    · exact not_fatal_of_perform hperform
  rw [publication_fails] at ha
  have hnot : .act a ∉ earlyScript p := by
    intro hmem
    rw [hs.fails_eq_false hmem hfatal] at ha
    exact Bool.noConfusion ha
  have hpre : earlyScript p <+: d := prefix_of_append hsplit (earlyScript_begins p) hnot
  have hearly : ∀ b, .act b ∈ earlyScript p → call.fails p b = false := by
    intro b hb
    rw [← publication_fails]
    exact hd b (hpre.subset hb)
  by_cases h₀ : p = 0
  · subst h₀
    have hcheck := hearly (.xchg .htopo .checkPlen) (by
      simp [earlyScript, UniqPath.rootScript, lift])
    have hinit := hearly .topologyInit (by simp [earlyScript])
    simp [crashes, failsPath, hcheck, hinit]
  · have hcheck := hearly (.xchg .htopo .checkPlen) (by
      simp [earlyScript, h₀, UniqPath.peerScript, lift])
    have hcalloc := hearly (.xchg .htopo .callocResult) (by
      simp [earlyScript, h₀, UniqPath.peerScript, lift])
    have hinit := hearly .topologyInit (by simp [earlyScript, h₀])
    simp [crashes, failsPath, hcheck, hcalloc, hinit]

/-! ## How far they get -/

/-- How many collectives `p` enters. -/
def exit (call : Call n) (p : Fin n) : Nat :=
  exits (call.publication.fails p) (call.protocol.script p)

theorem exit_root : call.exit 0 = exits (call.fails 0) rootScript := by
  rw [exit, script_root]
  congr 1
  funext a
  exact publication_fails 0 a

theorem exit_peer (hp : p ≠ 0) : call.exit p = exits (call.fails p) peerScript := by
  rw [exit, script_peer call hp]
  congr 1
  funext a
  exact publication_fails p a

theorem Starts.exit_of_crashes (hs : Starts call p) (hc : call.crashes p = true) :
    5 ≤ call.exit p ∧ call.exit p ≤ 6 := by
  by_cases hp : p = 0
  · subst hp
    rw [exit_root, exits_root]
    simp only [hs.segName, hs.barrier]
    cases hpath : call.failsPath 0 <;> cases hinit : call.fails 0 .topologyInit <;>
      simp_all [crashes]
  · rw [exit_peer hp, exits_peer hp]
    simp only [hs.segName, hs.result, hs.barrier]
    cases hpath : call.failsPath p <;> cases hinit : call.fails p .topologyInit <;>
      simp_all [crashes]

theorem Starts.exit_root (hs : Starts call 0) (hc : call.crashes 0 = false) : call.exit 0 =
    if call.failsTopology then 6 else if call.failsSegment 0 then 7 else 9 := by
  obtain ⟨hpath, hinit⟩ := Bool.or_eq_false_iff.mp hc
  rw [Call.exit_root, exits_root]
  simp [hs.segName, hs.barrier, hpath, hinit]

theorem Starts.exit_peer (hs : Starts call p) (hp : p ≠ 0) (hc : call.crashes p = false) :
    call.exit p = if call.failsSegment p then 8 else 9 := by
  obtain ⟨hpath, hinit⟩ := Bool.or_eq_false_iff.mp hc
  rw [Call.exit_peer hp, exits_peer hp]
  simp [hs.segName, hs.result, hs.barrier, hpath, hinit]

theorem posted_le {s : Group n Act Coll Local Files Msg (Halt Int)}
    (hr : Reachable call.protocol s) (p : Fin n) : (s.posted p).length ≤ call.exit p := by
  exact (determined call).posted_le call.colls_script hr p

/-- Nobody has got past the first node barrier unless all have entered it. -/
theorem exit_of_past_barrier {s : Group n Act Coll Local Files Msg (Halt Int)}
    (hr : Reachable call.protocol s) (hf : (s.proc p).failed.isSome)
    (hp : 8 ≤ (s.posted p).length) (q : Fin n) : 8 ≤ call.exit q := by
  obtain ⟨e, he⟩ := Option.isSome_iff_exists.mp hf
  obtain ⟨hin, -⟩ := (hr.wf call.colls_script p).failed e he
  have hleft : left s p = (s.posted p).length := by simp [left, hin]
  have hmatched : Matched call.protocol s .smBarrier 7 :=
    hr.ordered call.colls_script (p := p) (by omega) rfl
  exact le_trans (hmatched q) (posted_le hr q)

/-- If everyone starts and nobody waits in vain for a process that fails later. -/
theorem not_abandoned_of_starts (hs : ∀ p, Starts call p)
    (h : call.crashes 0 = true ∨ (∀ p, p ≠ 0 → call.crashes p = true) ∨
      call.failsTopology = false ∧ call.failsSegment 0 = false ∧
        ((∃ p, call.crashes p = true) ∨ ∀ p, call.failsSegment p = false)) :
    call.NeverAbandons := by
  rintro s hr p q ⟨hstranded, c, hc⟩
  have hlt := hstranded.posted_lt call.colls_script hr
  have hp : (s.posted p).length = call.exit p :=
    (determined call).posted_of_failed call.colls_script hr hstranded.1
  have hq := posted_le hr q
  have hreturns : call.crashes p = false := not_crashes_of_returned hr (hs p) hc
  have hbarrier (h₈ : 8 ≤ call.exit p) (r : Fin n) : call.crashes r = false := by
    by_contra hne
    have := exit_of_past_barrier hr hstranded.1 (hp ▸ h₈) r
    have := ((hs r).exit_of_crashes (Bool.not_eq_false _ ▸ hne)).2
    omega
  have hpeer (h₀ : p ≠ 0) : 8 ≤ call.exit p := by
    rw [(hs p).exit_peer h₀ hreturns]
    split <;> omega
  rcases h with hroot | hpeers | ⟨htopo, hseg, hattach⟩
  · -- process 0 crashes, and nobody else gets past the barrier
    have h₀ : p ≠ 0 := by
      rintro rfl
      rw [hreturns] at hroot
      exact Bool.noConfusion hroot
    rw [hbarrier (hpeer h₀) 0] at hroot
    exact Bool.noConfusion hroot
  · -- all others crash before process 0 can return
    have h₀ : p = 0 := by
      by_contra hne
      rw [hpeers p hne] at hreturns
      exact Bool.noConfusion hreturns
    have hq₀ : q ≠ 0 := by
      rintro rfl
      rw [h₀] at hlt
      exact lt_irrefl _ hlt
    have := ((hs q).exit_of_crashes (hpeers q hq₀)).2
    have hexit : 6 ≤ call.exit p := by
      subst h₀
      rw [(hs 0).exit_root hreturns]
      split
      · omega
      · split <;> omega
    omega
  · have h₈ : 8 ≤ call.exit p := by
      by_cases h₀ : p = 0
      · subst h₀
        simp [(hs 0).exit_root hreturns, htopo, hseg]
      · exact hpeer h₀
    rcases hattach with ⟨r, hr⟩ | hattach
    · rw [hbarrier h₈ r] at hr
      exact Bool.noConfusion hr
    · -- nobody fails before the last barrier
      have h₉ (r : Fin n) : call.exit r = 9 := by
        by_cases h₀ : r = 0
        · subst h₀
          simp [(hs 0).exit_root (hbarrier h₈ 0), htopo, hseg]
        · simp [(hs r).exit_peer h₀ (hbarrier h₈ r), hattach r]
      rw [h₉] at hp hq
      omega

omit [NeZero n] in
theorem error_of_map {ε α β : Type} {x : Except ε α} {f : α → β} {e : ε}
    (h : (x.mapError id).map f = .error e) : x = .error e := by
  cases x with
  | ok a => simp [Except.map, Except.mapError] at h
  | error e' => simpa [Except.map, Except.mapError] using h

omit [NeZero n] in
theorem bail_of_not_fatal {a : Act} (ha : ¬Fatal a) (e : Halt Int) : a.bail e = e := by
  cases a with
  | topologyInit => exact absurd (.inl rfl) ha
  | xchg m b =>
    cases m with
    | bseg => rfl
    | htopo => exact absurd (.inr ⟨b, rfl⟩) ha
  | _ => rfl

theorem not_fatal_of_fails {a : Act} (ha : .act a ∈ call.protocol.script p)
    (hf : call.fails p a = true) (hp : call.crashes p = false) : ¬Fatal a := by
  obtain ⟨hpath, hinit⟩ := Bool.or_eq_false_iff.mp hp
  obtain ⟨hcheck, hcalloc⟩ := Bool.or_eq_false_iff.mp hpath
  rintro (rfl | ⟨b, rfl⟩)
  · rw [hinit] at hf
    exact Bool.noConfusion hf
  · cases b with
    | checkPlen =>
      rw [hcheck] at hf
      exact Bool.noConfusion hf
    | getSegmentName =>
      rw [fails_of_sound rfl] at hf
      exact Bool.noConfusion hf
    | callocResult =>
      have h₀ : p ≠ 0 := by
        rintro rfl
        simp [script_root, rootScript, topologyScript, barrierScript, UniqPath.rootScript,
          createScript, lift] at ha
      simp [h₀, hf] at hcalloc

theorem not_fatal_of_exit {d rest : List (Instr Act Coll)} {a : Act}
    (h : call.protocol.script p = d ++ .act a :: rest) (hd : (colls d).length < 4) : ¬Fatal a := by
  have hplaced : Placed (fun a k => Fatal a → 4 ≤ k) 0 (call.protocol.script p) := by
    by_cases hp : p = 0
    · subst hp
      simp [script_root, rootScript, topologyScript, barrierScript, UniqPath.rootScript,
        createScript, lift, Placed, Fatal]
    · simp [script_peer call hp, peerScript, UniqPath.peerScript, attachScript, lift, Placed, Fatal]
  intro ha
  have := hplaced.at h ha
  omega

/-- Who fails before or without crashing returns a code. -/
theorem returned {s : Group n Act Coll Local Files Msg (Halt Int)}
    (hr : Reachable call.protocol s) (hf : (s.proc p).failed.isSome)
    (hp : call.exit p < 4 ∨ call.crashes p = false) : ∃ c, (s.proc p).failed = some (.code c) := by
  obtain ⟨e, he⟩ := Option.isSome_iff_exists.mp hf
  obtain ⟨d, a, rest, hsplit, hlen, -, ha, herr⟩ := (sound call).stopped call.colls_script hr he
  rw [publication_fails] at ha
  have hexit : (s.posted p).length = call.exit p :=
    (determined call).posted_of_failed call.colls_script hr hf
  have hfatal : ¬Fatal a := by
    rcases hp with hp | hp
    · exact not_fatal_of_exit hsplit (by omega)
    · exact not_fatal_of_fails (by rw [hsplit]; simp) ha hp
  rw [he]
  rcases herr with hfault | ⟨hnone, loc, fs, hperform⟩
  · simp only [publication, Option.map_eq_some_iff] at hfault
    obtain ⟨rc, -, rfl⟩ := hfault
    exact ⟨rc.code, by rw [bail_of_not_fatal hfatal]⟩
  · -- only the check of the first length fails without a fault
    have hdead : call.dead a = true := by
      simp only [publication, Option.map_eq_none_iff] at hnone
      simpa [fails, hnone] using ha
    cases a with
    | xchg m b =>
      have hbail : (Act.xchg m b).bail = id := funext (bail_of_not_fatal hfatal)
      simp only [publication, perform, hbail] at hperform
      have hcode : ∃ c, e = .code c := by
        split at hperform
        · exact UniqPath.execRoot_error (error_of_map hperform)
        · exact UniqPath.execPeer_error (error_of_map hperform)
      obtain ⟨c, rfl⟩ := hcode
      exact ⟨c, rfl⟩
    | _ => simp [dead] at hdead

/-- Some run abandons `q`, if `p` fails before it and returns. -/
theorem exists_abandoned {q : Fin n} {k : Nat} (hall : ∀ r, k ≤ call.exit r)
    (hroot : BroadcastsOf call.protocol sequence p k (call.exit p))
    (hlt : call.exit p < call.exit q) (hp : call.exit p < 4 ∨ call.crashes p = false) :
    ∃ s, Reachable call.protocol s ∧ call.Abandoned s p q := by
  obtain ⟨s, hr, hs⟩ := (determined call).strands_from call.colls_script hall hroot hlt
  exact ⟨s, hr, hs, returned hr hs.1 hp⟩

/-- The one who fails first abandons whoever does not fail with it. -/
theorem abandoned_of_min {q : Fin n} (hmin : ∀ r, call.exit p ≤ call.exit r)
    (hlt : call.exit p < call.exit q) (hp : call.exit p < 4 ∨ call.crashes p = false) :
    ∃ s, Reachable call.protocol s ∧ call.Abandoned s p q :=
  exists_abandoned hmin (fun _ _ hi hlt => by omega) hlt hp

theorem abandons {q : Fin n}
    (h : ∃ s, Reachable call.protocol s ∧ call.Abandoned s p q) : ¬call.NeverAbandons := by
  obtain ⟨s, hr, hs⟩ := h
  exact fun hn => hn s hr p q hs

theorem Starts.le_exit (hs : Starts call p) : 5 ≤ call.exit p := by
  cases hc : call.crashes p with
  | true => exact (hs.exit_of_crashes hc).1
  | false =>
    by_cases hp : p = 0
    · subst hp
      rw [hs.exit_root hc]
      split
      · omega
      · split <;> omega
    · rw [hs.exit_peer hp hc]
      split <;> omega

theorem exit_root_of_not_starts (hname : (call.segName .bseg).isOk = true)
    (h : ¬Starts call 0) : call.exit 0 = 2 := by
  have hb : call.failsBarrier 0 = true := by
    by_contra hb
    exact h ⟨hname, by simp [failsResult], by simpa using hb⟩
  rw [exit_root, exits_root]
  simp [hname, hb]

theorem exit_peer_of_not_starts (hp : p ≠ 0) (hname : (call.segName .bseg).isOk = true)
    (h : ¬Starts call p) : call.exit p = 1 ∨ call.exit p = 3 := by
  rw [exit_peer hp, exits_peer hp]
  cases hresult : call.failsResult p with
  | true => simp [hname]
  | false =>
    have hb : call.failsBarrier p = true := by
      by_contra hb
      exact h ⟨hname, hresult, by simpa using hb⟩
    simp [hname, hb]

/-- If somebody fails up to the exchange of the second path, somebody is abandoned. -/
theorem abandons_of_not_starts (hn : 2 ≤ n) (hname : (call.segName .bseg).isOk = true)
    (h : ∃ p, ¬Starts call p) : ¬call.NeverAbandons := by
  obtain ⟨p, hp⟩ := h
  obtain ⟨m, -, hm⟩ := Finset.exists_min_image Finset.univ call.exit ⟨p, Finset.mem_univ p⟩
  have hmin : ∀ r, call.exit m ≤ call.exit r := fun r => hm r (Finset.mem_univ r)
  have hexit {r : Fin n} (hr : ¬Starts call r) : call.exit r < 4 := by
    by_cases h₀ : r = 0
    · subst h₀
      simp [exit_root_of_not_starts hname hr]
    · rcases exit_peer_of_not_starts h₀ hname hr with h | h <;> omega
  have hlt : call.exit m < 4 := lt_of_le_of_lt (hmin p) (hexit hp)
  have hstarts : ¬Starts call m := fun hs => absurd hs.le_exit (by omega)
  -- process 0 and the others never leave at the same collective
  have hother : ∃ q, call.exit q ≠ call.exit m := by
    by_contra hne
    push Not at hne
    have hone : (⟨1, hn⟩ : Fin n) ≠ 0 := by simp [Fin.ext_iff]
    have h₀ : call.exit 0 = 2 := exit_root_of_not_starts hname fun hs => by
      have := hs.le_exit
      rw [hne 0] at this
      omega
    have h₁ := exit_peer_of_not_starts hone hname fun hs => by
      have := hs.le_exit
      rw [hne _] at this
      omega
    rw [hne _, ← hne 0, h₀] at h₁
    omega
  obtain ⟨q, hq⟩ := hother
  exact abandons (abandoned_of_min hmin (lt_of_le_of_ne (hmin q) hq.symm) (.inl hlt))

/-- If process 0 returns while it shares its topology, and another process does not crash,
that one is abandoned. -/
theorem abandons_of_root {q : Fin n} (hs : ∀ p, Starts call p) (h₀ : call.crashes 0 = false)
    (hroot : call.failsTopology = true ∨ call.failsSegment 0 = true) (hq : q ≠ 0)
    (hcrash : call.crashes q = false) : ¬call.NeverAbandons := by
  have hexit : call.exit 0 = 6 ∨ call.exit 0 = 7 := by
    rw [(hs 0).exit_root h₀]
    cases htopo : call.failsTopology with
    | true => simp
    | false =>
      have hseg : call.failsSegment 0 = true := by simpa [htopo] using hroot
      simp [hseg]
  have hlt : call.exit 0 < call.exit q := by
    rw [(hs q).exit_peer hq hcrash]
    split <;> omega
  refine abandons (exists_abandoned (k := 4) (fun r => ?_) ?_ hlt (.inr h₀))
  · exact le_trans (by omega) (hs r).le_exit
  intro i c hi hlt hc
  have hi' : i = 4 ∨ i = 5 ∨ i = 6 := by omega
  rcases hi' with rfl | rfl | rfl
  all_goals
    simp only [sequence] at hc
    obtain rfl := Option.some.inj hc
    rfl

/-- If nobody crashes and somebody fails to attach, somebody is abandoned. -/
theorem abandons_of_attach (hs : ∀ p, Starts call p) (hcrash : ∀ p, call.crashes p = false)
    (htopo : call.failsTopology = false) (hseg : call.failsSegment 0 = false)
    (h : ∃ p, call.failsSegment p = true) : ¬call.NeverAbandons := by
  obtain ⟨p, hp⟩ := h
  have h₀ : p ≠ 0 := by
    rintro rfl
    rw [hseg] at hp
    exact Bool.noConfusion hp
  have hroot : call.exit 0 = 9 := by simp [(hs 0).exit_root (hcrash 0), htopo, hseg]
  have hexit : call.exit p = 8 := by simp [(hs p).exit_peer h₀ (hcrash p), hp]
  refine abandons (abandoned_of_min (q := 0) (fun r => ?_) (by omega) (.inr (hcrash p)))
  by_cases hr : r = 0
  · subst hr
    omega
  · rw [hexit, (hs r).exit_peer hr (hcrash r)]
    split <;> omega

/-- Without a first path all leave at once. -/
theorem not_abandoned_of_segName (h : (call.segName .bseg).isOk = false) : call.NeverAbandons := by
  have hexit (r : Fin n) : call.exit r = 1 := by
    by_cases hr : r = 0
    · subst hr
      rw [exit_root, exits_root, if_pos h]
    · rw [exit_peer hr, exits_peer hr, if_pos h]
  rintro s hr p q ⟨hstranded, -⟩
  refine (determined call).not_strandedBy call.colls_script (fun p q => ?_) s hr p q hstranded
  exact (hexit p).trans (hexit q).symm

/-- **No stranding.** If there are others, nobody waits for a process that has returned
exactly when the processes of the node are in step. -/
theorem neverAbandons_iff (call : Call n) (hn : 2 ≤ n) : call.NeverAbandons ↔ call.InStep := by
  cases hname : (call.segName .bseg).isOk with
  | false => exact ⟨fun _ => .inl hname, fun _ => not_abandoned_of_segName hname⟩
  | true =>
    constructor
    · intro h
      have hs : ∀ p, Starts call p := by
        by_contra hne
        push Not at hne
        exact abandons_of_not_starts hn hname hne h
      refine .inr ⟨fun p => ⟨(hs p).result, (hs p).barrier⟩, ?_⟩
      by_contra hne
      push Not at hne
      obtain ⟨h₀, ⟨q, hq, hqc⟩, hshare⟩ := hne
      have hroot : call.failsTopology = false ∧ call.failsSegment 0 = false := by
        by_contra hne
        refine abandons_of_root hs (by simpa using h₀) ?_ hq (by simpa using hqc) h
        cases htopo : call.failsTopology with
        | true => exact .inl rfl
        | false => exact .inr (by simpa [htopo] using hne)
      obtain ⟨hcrash, p, hp⟩ := hshare hroot.1 hroot.2
      exact abandons_of_attach hs (fun p => by simpa using hcrash p) hroot.1 hroot.2
        ⟨p, by simpa using hp⟩ h
    · rintro (hno | ⟨hstarts, h⟩)
      · rw [hname] at hno
        exact Bool.noConfusion hno
      · exact not_abandoned_of_starts (fun p => ⟨hname, (hstarts p).1, (hstarts p).2⟩) h

def cleanCall : Call 2 where
  segName m := match m with
    | .bseg => .ok ⟨[47, 99, 49], by decide⟩
    | .htopo => .ok ⟨[47, 99, 50], by decide⟩
  xml := ⟨[60, 62], by decide⟩
  keeps _ := false
  fault _ _ := none
  fault_mem := by simp

theorem cleanCall_neverAbandons : cleanCall.NeverAbandons :=
  (neverAbandons_iff cleanCall le_rfl).mpr (by decide)

/-- Two processes; the first one cannot load its topology. -/
def blindCall : Call 2 where
  segName m := match m with
    | .bseg => .ok ⟨[47, 99, 51], by decide⟩
    | .htopo => .ok ⟨[47, 99, 52], by decide⟩
  xml := ⟨[60, 47, 62], by decide⟩
  keeps _ := false
  fault p a := if p.val = 0 ∧ a = .topoLoad then some .errTopo else none
  fault_mem p a e h := by
    split at h
    · next hpa => simp_all [Act.failsWith]
    · simp at h

/-- Process 0 has returned, and process 1 waits for the length of the topology. -/
theorem blindCall_abandons :
    ∃ s, Reachable blindCall.protocol s ∧ blindCall.Abandoned s 0 1 := by
  have h₀ : blindCall.exit 0 = 6 := by
    rw [exit_root, exits_root]
    decide
  have h₁ : blindCall.exit 1 = 9 := by
    rw [exit_peer (by decide), exits_peer (by decide)]
    decide
  refine abandoned_of_min (Fin.forall_fin_two.mpr ⟨le_rfl, ?_⟩) (by omega) (.inr (by decide))
  omega

end LibQuo.Create.Call
