import LibQuo.AutoDistrib.Follows

/-!
What the processes read of each other in the call: bindings as they were at the
entry of their owners, a segment that is there, cells that were written; and
all decide on one table.
-/

namespace LibQuo.AutoDistrib.Call
open CMem Sm Spmd

variable {n : Nat} [NeZero n] {call : Call n}
variable {s t : Group n (Act n) Coll Local (World n) Msg (Halt Int)}

structure NoFailure (call : Call n) : Prop where
  fault : ∀ p a, call.fault p a = none
  segName : ∃ path, call.segName = .ok path
  malloc : ∀ p site, call.malloc p site = true

/-- Process `p` is about to execute `a`. -/
def About (s : Group n (Act n) Coll Local (World n) Msg (Halt Int)) (p : Fin n) (a : Act n) :
    Prop :=
  ∃ rest loc, s.proc p = ⟨.act a :: rest, false, loc, none⟩

def Decides (s : Group n (Act n) Coll Local (World n) Msg (Halt Int)) (p : Fin n) : Prop :=
  About s p .decide ∨ ((s.proc p).todo = [] ∧ (s.proc p).failed = none)

/-! ## Bindings -/

variable (call) in
theorem binding_exec (p : Fin n) (a : Act n) (loc : Local) (w : World n) :
    (call.protocol.exec p a loc w).2.binding = w.binding := by
  rcases call.exec_world p a loc w with ⟨fs, h⟩ | ⟨-, h⟩ | ⟨rid, r, -, h⟩ <;> rw [h]

variable (call) in
theorem entered_exec (p : Fin n) (a : Act n) (loc : Local) (w : World n) :
    (call.protocol.exec p a loc w).2.entered = w.entered ∨ (a = .entry ∧
      (call.protocol.exec p a loc w).2.entered =
        Function.update w.entered p (some (w.binding p))) := by
  rcases call.exec_world p a loc w with ⟨fs, h⟩ | ⟨ha, h⟩ | ⟨rid, r, -, h⟩
  · exact .inl (by rw [h])
  · exact .inr ⟨ha, by rw [h]⟩
  · exact .inl (by rw [h])

theorem entered_error {p : Fin n} {a : Act n} {loc : Local} {w w' : World n} {e : Halt Int}
    (h : call.protocol.exec p a loc w = (.error e, w')) : w'.entered = w.entered := by
  have he := call.entered_exec p a loc w
  rw [h] at he
  rcases he with he | ⟨rfl, -⟩
  · exact he
  · cases hf : call.fault p (.entry : Act n) with
    | some e' =>
      rw [exec_of_fault hf] at h
      rw [← (Prod.mk.inj h).2]
    | none =>
      rw [exec_of_noFault hf] at h
      simp only [perform] at h
      split at h
      · rw [← (Prod.mk.inj h).2]
      · simp at h

variable (call) in
theorem reads_exec_of (p : Fin n) (a : Act n) (loc : Local) (w : World n) :
    (call.protocol.exec p a loc w).2.reads = w.reads ∨ ∃ rid r, a = .qidsQuery rid r ∧
      (call.protocol.exec p a loc w).2.reads = w.reads ++ [(rid, r, w.binding r)] := by
  rcases call.exec_world p a loc w with ⟨fs, h⟩ | ⟨-, h⟩ | ⟨rid, r, ha, h⟩
  · exact .inl (by rw [h])
  · exact .inl (by rw [h])
  · exact .inr ⟨rid, r, ha, by rw [h]⟩

variable (call) in
/-- The script of every process begins with the entry, and has no other. -/
theorem script_entry (p : Fin n) :
    ∃ rest, call.protocol.script p = .act .entry :: rest ∧ .act .entry ∉ rest := by
  have hrow : ∀ f : Nat → Act n, (∀ i, f i ≠ .entry) → (.entry : Act n) ∉ call.perRes f := by
    intro f hf hmem
    obtain ⟨i, -, hi⟩ := List.mem_map.mp hmem
    exact hf i hi
  have hquery : (.entry : Act n) ∉ call.queries := by
    intro hmem
    have : ∀ a ∈ call.queries, a ≠ .entry := by
      rw [forall_mem_queries]
      simp
    exact this _ hmem rfl
  by_cases hp : p = 0
  · refine ⟨_, by simp only [protocol, if_pos hp, rootScript, publishScript, List.cons_append]; rfl,
      ?_⟩
    simp [tableScript, segmentScript, UniqPath.rootScript, createScript, lift, hquery,
      hrow .writeRow]
  · refine ⟨_, by
      simp only [protocol, if_neg hp, peerScript, readScript, awaitScript, List.cons_append]
      rfl, ?_⟩
    simp [UniqPath.peerScript, attachScript, lift, hrow .readRow]

variable (call) in
/-- A process that has not begun has not been recorded; one in the call still has the
binding it entered with. -/
def Kept (s : Group n (Act n) Coll Local (World n) Msg (Halt Int)) (p : Fin n) : Prop :=
  ((s.proc p).todo = call.protocol.script p ∧ s.world.entered p = none) ∨
    (.act .entry ∉ (s.proc p).todo ∧ ∃ b, s.world.entered p = some b ∧
      (s.world.binding p = b ∨ (s.proc p).todo = [] ∨ (s.proc p).failed.isSome))

/-- The local steps of `p` itself. -/
theorem kept_act {p : Fin n} {a : Act n} {rest : List (Instr (Act n) Coll)} {loc loc' : Local}
    {w : World n} (hp : s.proc p = ⟨.act a :: rest, false, loc, none⟩)
    (hx : call.protocol.exec p a loc s.world = (.ok loc', w)) (h : call.Kept s p) :
    call.Kept { s with
      proc := Function.update s.proc p ⟨rest, false, loc', none⟩
      world := w } p := by
  have hb : w.binding = s.world.binding := by
    rw [← call.binding_exec p a loc s.world, hx]
  obtain ⟨rest', hscript, hnot⟩ := call.script_entry p
  rcases h with ⟨htodo, hnone⟩ | ⟨hmem, b, hb', hbind⟩
  · -- the first step is the entry
    rw [hp, hscript] at htodo
    obtain ⟨ha, rfl⟩ := List.cons.inj htodo
    obtain rfl : a = .entry := by simpa using ha
    have hperform := (exec_ok hx).2
    refine .inr ⟨by simpa using hnot, s.world.binding p, ?_, .inl ?_⟩
    · simp only [perform] at hperform
      split at hperform
      · simp at hperform
      · rw [← (Prod.mk.inj hperform).2]
        simp
    · simp [hb]
  · rw [hp] at hmem hbind
    have he := call.entered_exec p a loc s.world
    rw [hx] at he
    rcases he with he | ⟨rfl, -⟩
    · refine .inr ⟨by simpa using fun h => hmem (List.mem_cons_of_mem _ h), b, ?_, ?_⟩
      · simpa [show w.entered = _ from he] using hb'
      · left
        simpa [hb] using hbind
    · exact absurd List.mem_cons_self hmem

theorem kept_step (hs : Step call.protocol s t) (p : Fin n) (h : call.Kept s p) :
    call.Kept t p := by
  cases hs with
  | @act q a rest loc loc' w hq hx =>
    by_cases hpq : p = q
    · subst hpq
      exact kept_act hq hx h
    · have hb : w.binding = s.world.binding := by
        rw [← call.binding_exec q a loc s.world, hx]
      have he : w.entered p = s.world.entered p := by
        have he := call.entered_exec q a loc s.world
        rw [hx] at he
        rcases he with he | ⟨-, he⟩
        · exact congrFun he p
        · rw [show w.entered = _ from he, Function.update_of_ne hpq]
      simpa [Kept, hpq, hb, he] using h
  | @fail q a rest loc e w hq hx =>
    have hb : w.binding = s.world.binding := by
      rw [← call.binding_exec q a loc s.world, hx]
    have he := entered_error hx
    by_cases hpq : p = q
    · subst hpq
      rcases h with ⟨htodo, hnone⟩ | ⟨hmem, b, hb', -⟩
      · exact .inl ⟨by simpa [hq] using htodo, by simpa [he] using hnone⟩
      · exact .inr ⟨by simpa [hq] using hmem, b, by simpa [he] using hb', .inr (.inr (by simp))⟩
    · simpa [Kept, hpq, hb, he] using h
  | @enter q c rest loc hq =>
    by_cases hpq : p = q
    · subst hpq
      simpa [Kept, hq] using h
    · simpa [Kept, hpq] using h
  | @leave q c rest loc hq hrel =>
    by_cases hpq : p = q
    · subst hpq
      obtain ⟨rest', hscript, -⟩ := call.script_entry p
      rcases h with ⟨htodo, -⟩ | ⟨hmem, b, hb', hbind⟩
      · rw [hq, hscript] at htodo
        simp at htodo
      · rw [hq] at hmem hbind
        refine .inr ⟨by simpa using fun h => hmem (List.mem_cons_of_mem _ h), b, hb', ?_⟩
        left
        simpa using hbind
    · simpa [Kept, hpq] using h
  | @idle q w hout hidle =>
    obtain ⟨b, rfl⟩ := hidle
    by_cases hpq : p = q
    · subst hpq
      rcases h with h | ⟨hmem, b', hb', -⟩
      · exact .inl h
      · refine .inr ⟨hmem, b', hb', .inr ?_⟩
        obtain ⟨rest', hscript, -⟩ := call.script_entry p
        rcases hout with ⟨htodo, -⟩ | hout
        · rw [htodo, hscript] at hmem
          exact absurd List.mem_cons_self hmem
        · exact hout
    · simpa [Kept, hpq] using h

theorem kept (hr : Reachable call.protocol s) (p : Fin n) : call.Kept s p := by
  refine hr.invariant (I := fun s => ∀ p, call.Kept s p) ?_
    (fun s t _ hI hs p => kept_step hs p (hI p)) p
  exact fun p => .inl ⟨rfl, rfl⟩

omit [NeZero n] in
/-- Without failures, a call with resources and a positive bound has no dead step. -/
theorem NoFailure.fails (hq : NoFailure call) (hmax : 0 < call.maxQids) (hres : call.nres ≠ 0)
    (p : Fin n) (a : Act n) : call.fails p a = false := by
  obtain ⟨path, hname⟩ := hq.segName
  refine fails_eq_false (hq.fault p a) ?_
  cases a with
  | entry => simp [dead, hmax]
  | nobjsByType => simp [dead, hres]
  | xchg a => cases a <;> simp [dead, hname, Except.isOk, Except.toBool]
  | _ => rfl

/-- A process other than process 0 that no step keeps from the last barrier gets there, whether
it fails behind it or not. -/
theorem left_of_failed (hr : Reachable call.protocol s) {p : Fin n} (hp : p ≠ 0)
    (hexits : exits (call.fails p) (call.protocol.script p) = 6)
    (hfail : (s.proc p).failed.isSome) : left s p = 6 := by
  obtain ⟨e, he⟩ := Option.isSome_iff_exists.mp hfail
  obtain ⟨t, a, rest, loc, w, ht, hpt, hx, hps⟩ := hr.failed_in he
  have hmore : colls rest = [] := by
    by_contra hmore
    obtain ⟨d, hd⟩ := (ht.wf call.colls_script p).suffix
    rw [hpt] at hd
    have hlen : (colls (d ++ Instr.act a :: rest)).length = 6 := by
      rw [hd, call.colls_script]
      rfl
    have halive := fails_eq_false_of_exits (by rw [hlen, hd, hexits]) hmore
    have hok := exec_isOk ht hpt (by
      rintro rfl
      exact hmore (colls_decide ht hpt))
    rw [failsFor_peer hp, halive, hx] at hok
    simp [Except.isOk, Except.toBool] at hok
  have hsum := hr.left_add_colls call.colls_script p
  rw [hps] at hsum
  simpa [colls, hmore, sequence] using hsum

/-- Whoever fails while process 0 queries has all collectives behind it. -/
def Stays (call : Call n) : Prop :=
  ∀ s, Reachable call.protocol s → ∀ rid r, About s 0 (.qidsQuery rid r) →
    ∀ p, p ≠ 0 → (s.proc p).failed.isSome → left s p = 6

theorem NoFailure.stays (hq : NoFailure call) : Stays call := by
  rintro s hr rid r ⟨rest, loc, h₀⟩ p hp hfail
  have hleft₀ : left s 0 = 3 := hr.place call.colls_script placed_root (a := .qidsQuery rid r)
    (by rw [h₀])
  obtain ⟨d, hd⟩ := (follows hr).proc 0
  obtain ⟨post, hplen⟩ : ∃ post, call.protocol.script 0 = [.act .entry, .coll .smBarrier,
      .act .nobjsByType, .act (.xchg .getSegmentName)] ++ .coll (.xchg .plen) :: post :=
    ⟨_, by rw [script_root, publishScript_plen, List.append_assoc]; rfl⟩
  obtain ⟨e, he, -⟩ := hr.done_of_left call.colls_script hplen
    (by rw [hleft₀]; simp [colls]) hd.split
  have hmax : 0 < call.maxQids := by
    have hentry := hd.succeeds .entry (by rw [he]; simp)
    simpa [reference, failsFor, Call.fails, dead, hq.fault, lacks] using hentry
  have hres : call.nres ≠ 0 := by
    have hnobjs := hd.succeeds .nobjsByType (by rw [he]; simp)
    simpa [reference, failsFor, Call.fails, dead, hq.fault, lacks] using hnobjs
  refine left_of_failed hr hp ?_ hfail
  rw [exits_eq_length _ fun a _ => hq.fails hmax hres p a, call.colls_script]
  rfl

/-- While process 0 queries, everyone is in the call. -/
theorem Stays.in_call (hstay : Stays call) (hr : Reachable call.protocol s) {rid : Nat}
    {r : Fin n} (habout : About s 0 (.qidsQuery rid r)) (p : Fin n) :
    s.world.entered p = some (s.world.binding p) := by
  have hfailed := hstay s hr rid r habout p
  obtain ⟨rest, loc, h₀⟩ := habout
  have hleft₀ : left s 0 = 3 := hr.place call.colls_script placed_root (a := .qidsQuery rid r)
    (by rw [h₀])
  have hposted₀ : (s.posted 0).length = 3 := by rw [← hleft₀]; simp [left, h₀]
  have hposted : 0 < (s.posted p).length := hr.ordered call.colls_script
    (k := 0) (p := 0) (by omega) rfl p
  -- the length of the segment has not been broadcast
  have hleft : left s p ≤ 3 := by
    by_contra hlt
    have : 3 < (s.posted 0).length := hr.ordered call.colls_script (not_le.mp hlt) rfl
    omega
  have hsum := hr.left_add_colls call.colls_script p
  simp only [sequence, List.length_cons, List.length_nil] at hsum
  rcases kept hr p with ⟨htodo, -⟩ | ⟨-, b, hb, hbind | htodo | hfail⟩
  · obtain ⟨rest', hscript, -⟩ := call.script_entry p
    have hin : (s.proc p).inside = false := by
      by_contra hin
      rw [Bool.not_eq_false] at hin
      obtain ⟨-, c, rest, log, v, hcoll, -⟩ := (hr.wf call.colls_script p).inside hin
      rw [htodo, hscript] at hcoll
      simp at hcoll
    have hlen := congrArg List.length (call.colls_script p)
    rw [← htodo] at hlen
    simp only [sequence, List.length_cons, List.length_nil] at hlen
    simp only [left, hin] at hsum
    simp at hsum
    omega
  · rw [hb, hbind]
  · rw [htodo] at hsum
    simp only [colls, List.length_nil] at hsum
    omega
  · have hp₀ : p ≠ 0 := by
      rintro rfl
      rw [h₀] at hfail
      simp at hfail
    have hsix := hfailed hp₀ hfail
    omega

/-- What is recorded of an entry stays. -/
theorem entered_step (hr : Reachable call.protocol s) (hs : Step call.protocol s t) {r : Fin n}
    {b : Cpuset} (h : s.world.entered r = some b) : t.world.entered r = some b := by
  cases hs with
  | @act p a rest loc loc' w hp hx =>
    have he := call.entered_exec p a loc s.world
    rw [hx] at he
    rcases he with he | ⟨rfl, he⟩
    · exact (congrFun he r).trans h
    · -- nobody enters twice
      have hne : r ≠ p := by
        rintro rfl
        rcases kept hr r with ⟨-, hnone⟩ | ⟨hnot, -⟩
        · rw [h] at hnone
          simp at hnone
        · rw [hp] at hnot
          exact hnot List.mem_cons_self
      rw [show w.entered = _ from he, Function.update_of_ne hne]
      exact h
  | @fail p a rest loc e w hp hx => exact (congrFun (entered_error hx) r).trans h
  | enter _ => exact h
  | leave _ _ => exact h
  | @idle p w hout hidle =>
    obtain ⟨b', rfl⟩ := hidle
    exact h

/-- Only the queries of process 0 read. -/
theorem reads_step (hr : Reachable call.protocol s) (hs : Step call.protocol s t) {rid : Nat}
    {r : Fin n} {b : Cpuset} (h : (rid, r, b) ∈ t.world.reads) :
    (rid, r, b) ∈ s.world.reads ∨ (About s 0 (.qidsQuery rid r) ∧ b = s.world.binding r) := by
  cases hs with
  | @act p a rest loc loc' w hp hx =>
    have hreads := call.reads_exec_of p a loc s.world
    rw [hx] at hreads
    rcases hreads with hreads | ⟨rid', r', rfl, hreads⟩
    · exact .inl (by rwa [← show w.reads = _ from hreads])
    · rw [show w.reads = _ from hreads, List.mem_append, List.mem_singleton] at h
      rcases h with h | h
      · exact .inl h
      · obtain ⟨rfl, rfl, rfl⟩ := by simpa using h
        have hp₀ : p = 0 := by
          by_contra hne
          exact hr.place call.colls_script (call.placed_peer p hne) (a := .qidsQuery rid r)
            (by rw [hp])
        subst hp₀
        exact .inr ⟨⟨rest, loc, hp⟩, rfl⟩
  | @fail p a rest loc e w hp hx =>
    rw [show w.reads = s.world.reads from congrArg Prod.snd (shared_error hx)] at h
    exact .inl h
  | enter _ => exact .inl h
  | leave _ _ => exact .inl h
  | @idle p w hout hidle =>
    obtain ⟨b', rfl⟩ := hidle
    exact .inl h

/-- What was read is what was recorded at the entry. -/
theorem Stays.fresh (hstay : Stays call) (hr : Reachable call.protocol s) :
    ∀ rid r b, (rid, r, b) ∈ s.world.reads → s.world.entered r = some b := by
  refine hr.invariant
    (I := fun s => ∀ rid r b, (rid, r, b) ∈ s.world.reads → s.world.entered r = some b) ?_ ?_
  · intro rid r b h
    simp [initial, protocol] at h
  · intro s t hr ih hs rid r b hmem
    rcases reads_step hr hs hmem with hmem | ⟨habout, rfl⟩
    · exact entered_step hr hs (ih rid r b hmem)
    · exact entered_step hr hs (hstay.in_call hr habout r)

/-! ## The segment -/

/-- What process 0 has once another process uses the segment. -/
theorem root_has (hr : Reachable call.protocol s) {p : Fin n} (hleft : 4 < left s p) :
    Publishes call s.world.reads ∧
      (s.proc 0).loc.smseg = (call.published s.world.reads).1.smseg ∧
      Tabled call s.world.reads (s.proc 0).loc := by
  obtain ⟨d, hd⟩ := (follows hr).proc 0
  obtain ⟨e, rfl, he, -⟩ := root_past hr hleft hd.split
  have hpub : Publishes call s.world.reads :=
    fun a ha => hd.succeeds a (List.mem_append_left _ ha)
  have hkeep : ∀ x, (fun x : Local × Shared n => (x.1.smseg, x.1.nranksInRes, x.1.rankIdsInRes))
      (e.foldl (advance call.protocol (call.reference s.world.reads) 0) x) =
      (x.1.smseg, x.1.nranksInRes, x.1.rankIdsInRes) := by
    intro x
    refine foldl_advance_keep
      (fun x : Local × Shared n => (x.1.smseg, x.1.nranksInRes, x.1.rankIdsInRes)) ?_
    intro i hi y
    cases i with
    | coll c => simp [advance, protocol]
    | act a =>
      have hframe := call.rootAct_frame (E := s.world.reads) a y
      have hsmseg := hframe.smseg
      have htable := hframe.table
      rw [advance, reference_act_root]
      rcases he a hi with rfl | rfl
      · simp only [hsmseg (by simp) (by simp), (htable id).1, (htable id).2]
      · simp only [hsmseg (by simp) (by simp), (htable id).1, (htable id).2]
  obtain ⟨path, hpublished⟩ := published_of hpub
  have hloc := hd.loc
  have hkept := hkeep (call.published s.world.reads)
  rw [replay_append, replay_root] at hloc
  simp only [Prod.mk.injEq] at hkept
  rw [hloc]
  exact ⟨hpub, hkept.1, hkept.2.1.trans hpublished.tabled.counts,
    hkept.2.2.trans hpublished.tabled.rows⟩

/-- What a process finds at an opening or reading step. -/
theorem sees (hr : Reachable call.protocol s) {p : Fin n} {a : Act n} (habout : About s p a)
    (hplace : ∀ k, rootPlace a k → False) (hon : a.onSegment) (hne : a ≠ .decide) :
    4 < left s p ∧ Sees call (s.proc p).loc (call.published s.world.reads).2.1 a ∧
      (a = .sm .openRdwr → s.world.files.dir = (call.published s.world.reads).2.1.dir) ∧
      s.world.files.store = (call.published s.world.reads).2.1.store := by
  obtain ⟨rest, loc, hp⟩ := habout
  have hp₀ : p ≠ 0 := by
    rintro rfl
    exact hplace _ (hr.place call.colls_script placed_root (a := a) (by rw [hp]))
  have hpeer : peerPlace a (left s p) :=
    hr.place call.colls_script (call.placed_peer p hp₀) (by rw [hp])
  have hf := follows hr
  obtain ⟨hpub, hdir, hstore⟩ := peer_meets hr hf hpeer (by simp [left, hp])
  obtain ⟨d, hd⟩ := hf.proc p
  have hsplit : call.protocol.script p = d ++ .act a :: rest := by simpa [hp] using hd.split
  rw [hd.loc]
  refine ⟨?_, (peerReady_at hp₀ hsplit hd.succeeds hne hpub).2, hdir, hstore hon⟩
  cases a with
  | sm b =>
    simp only [peerPlace] at hpeer
    omega
  | readHeader | readRow k =>
    simp only [peerPlace] at hpeer
    omega
  | _ => exact absurd hon id

theorem opened (hr : Reachable call.protocol s) (p : Fin n) (h : About s p (.sm .openRdwr)) :
    ∃ path i, (s.proc p).loc.smseg.path = some path ∧ s.world.files.dir path = some i ∧
      (s.proc 0).loc.smseg.segBasep = some i ∧
      (s.world.files.store i).size = (s.proc 0).loc.smseg.segSize ∧
      (s.proc p).loc.smseg.segSize = (s.proc 0).loc.smseg.segSize := by
  obtain ⟨hleft, ⟨path, hpath, hlinked, hsize⟩, hdir, hstore⟩ :=
    sees hr h (fun _ h => h) trivial (by simp)
  obtain ⟨hpub, hsm, -⟩ := root_has hr hleft
  obtain ⟨path', hpub'⟩ := published_of (E := s.world.reads) hpub
  have hsegSize : (s.proc 0).loc.smseg.segSize =
      ((call.published s.world.reads).2.1.store 0).size := by
    rw [hsm, hpub'.handle, hpub'.sized, Handle.mapped]
  have hbase : (s.proc 0).loc.smseg.segBasep = some 0 := by
    rw [hsm, hpub'.handle, Handle.mapped]
  refine ⟨path, 0, hpath, by rw [hdir rfl, hlinked], hbase, ?_, ?_⟩
  · rw [hstore, hsegSize]
  · rw [hsegSize, hsize]

/-! ## The decision -/

theorem left_of_decides (hr : Reachable call.protocol s) {p : Fin n} (h : Decides s p) :
    left s p = 6 := by
  rcases h with ⟨rest, loc, hp⟩ | ⟨htodo, -⟩
  · by_cases hp₀ : p = 0
    · subst hp₀
      exact hr.place call.colls_script placed_root (a := .decide) (by rw [hp])
    · exact hr.place call.colls_script (call.placed_peer p hp₀) (a := .decide) (by rw [hp])
  · have := hr.left_add_colls call.colls_script p
    rw [htodo] at this
    simpa [colls, sequence] using this

omit [NeZero n] in
theorem decide_notMem_readScript : .act .decide ∉ call.readScript := by
  have hrow : (.decide : Act n) ∉ call.perRes .readRow := by
    intro hmem
    obtain ⟨i, -, hi⟩ := List.mem_map.mp hmem
    simp at hi
  simp [readScript, awaitScript, UniqPath.peerScript, attachScript, lift, hrow]

/-- The table that process `p` comes to have. -/
def rowsAt (call : Call n) (E : Reads n) (p : Fin n) : List (List Int) :=
  if p = 0 then call.rowsSeen E else call.rowsRead E

/-- If the table fits, that is the same for all. -/
theorem Fits.rowsAt {E : Reads n} (h : call.Fits (call.rowsSeen E)) (p : Fin n) :
    call.rowsAt E p = call.rowsSeen E := by
  unfold Call.rowsAt
  split
  · rfl
  · exact cut_of_le (by rw [length_rowsSeen, h.headerInts])

/-- Process 0 decides on its table, the others on what they have read of it. -/
theorem table_of_decides (hr : Reachable call.protocol s) {p : Fin n} (h : Decides s p) :
    (s.proc p).loc.nranksInRes = lengths (call.rowsAt s.world.reads p) ∧
      (s.proc p).loc.rankIdsInRes = call.rowsAt s.world.reads p := by
  have hleft : 4 < left s p := by
    rw [left_of_decides hr h]
    omega
  obtain ⟨hpub, -, htable⟩ := root_has hr hleft
  by_cases hp₀ : p = 0
  · subst hp₀
    rw [rowsAt, if_pos rfl]
    exact ⟨htable.counts, htable.rows⟩
  · rw [rowsAt, if_neg hp₀]
    obtain ⟨d, hd⟩ := (follows hr).proc p
    have hwp := peerWp_readScript call s.world.reads hp₀
    have hscript : call.protocol.script p = call.readScript ++ [.act .decide] := by
      simp [protocol, hp₀, peerScript]
    have hread : Succeeds (call.reference s.world.reads) p call.readScript →
        (replay call.protocol (call.reference s.world.reads) p call.readScript).1.nranksInRes =
            lengths (call.rowsRead s.world.reads) ∧
          (replay call.protocol (call.reference s.world.reads) p call.readScript).1.rankIdsInRes =
            call.rowsRead s.world.reads :=
      fun hs => wp_end hwp hs hpub
    rw [hd.loc]
    have hsplit := hd.split
    rcases h with ⟨rest, loc, hp⟩ | ⟨htodo, -⟩
    · rw [hscript, hp] at hsplit
      obtain ⟨rfl, -⟩ := (List.append_cons_inj_of_notMem decide_notMem_readScript
        List.not_mem_nil).mp hsplit
      exact hread hd.succeeds
    · rw [hscript, htodo, List.append_nil] at hsplit
      subst hsplit
      have hsucc : Succeeds (call.reference s.world.reads) p call.readScript :=
        fun a ha => hd.succeeds a (List.mem_append_left _ ha)
      rw [replay_append]
      simp only [List.foldl_cons, List.foldl_nil, advance, reference_act_peer call _ hp₀, peerAct,
        perform]
      split
      · next heq =>
        split at heq
        all_goals simp at heq
        rw [← heq.1]
        exact hread hsucc
      · exact hread hsucc

variable (call) in
/-- The last step of every process is the decision. -/
theorem script_decide (p : Fin n) : ∃ pre, call.protocol.script p = pre ++ [.act .decide] := by
  by_cases hp : p = 0
  · refine ⟨call.publishScript ++ [.coll .smBarrier, .coll .smBarrier, .act (.sm .unlink)], ?_⟩
    simp [protocol, hp, rootScript]
  · exact ⟨call.readScript, by simp [protocol, hp, peerScript]⟩

theorem last_eq {p : Fin n} {i : Instr (Act n) Coll} (h : [i] <:+ call.protocol.script p) :
    i = .act .decide := by
  obtain ⟨pre, hpre⟩ := call.script_decide p
  obtain ⟨d, hd⟩ := h
  rw [hpre] at hd
  have := (List.append_inj' hd rfl).2
  simpa using this

/-- `out_selected` is what the decision gives on the table. -/
theorem decided (hr : Reachable call.protocol s) (p : Fin n) (htodo : (s.proc p).todo = [])
    (hok : (s.proc p).failed = none) :
    call.decide p (s.proc p).loc = .ok (s.proc p).loc.outSelected := by
  refine hr.invariant (I := fun s => ∀ p, (s.proc p).todo = [] → (s.proc p).failed = none →
    call.decide p (s.proc p).loc = .ok (s.proc p).loc.outSelected) ?_ ?_ p htodo hok
  · intro p h
    obtain ⟨rest, hrest, -⟩ := call.script_entry p
    have h' : call.protocol.script p = [] := h
    rw [h'] at hrest
    simp at hrest
  · intro s t hr ih hs p htodo hok
    cases hs with
    | @act q a rest loc loc' w hq hx =>
      by_cases hpq : p = q
      · subst hpq
        have hsuff := (hr.wf call.colls_script p).suffix
        obtain rfl : rest = [] := by simpa using htodo
        rw [hq] at hsuff
        obtain rfl : a = .decide := by simpa using last_eq hsuff
        have hperform := (exec_ok hx).2
        simp only [perform] at hperform
        cases hdec : call.decide p loc with
        | error e => simp [hdec] at hperform
        | ok v =>
          rw [hdec] at hperform
          obtain ⟨h, -⟩ := Prod.mk.inj hperform
          obtain rfl := Except.ok.inj h
          simp only [Function.update_self]
          exact hdec
      · simpa [hpq] using ih p (by simpa [hpq] using htodo) (by simpa [hpq] using hok)
    | @fail q a rest loc e w hq hx =>
      by_cases hpq : p = q
      · subst hpq
        simp at htodo
      · simpa [hpq] using ih p (by simpa [hpq] using htodo) (by simpa [hpq] using hok)
    | @enter q c rest loc hq =>
      by_cases hpq : p = q
      · subst hpq
        simp at htodo
      · simpa [hpq] using ih p (by simpa [hpq] using htodo) (by simpa [hpq] using hok)
    | @leave q c rest loc hq hrel =>
      by_cases hpq : p = q
      · subst hpq
        have hsuff := (hr.wf call.colls_script p).suffix
        obtain rfl : rest = [] := by simpa using htodo
        rw [hq] at hsuff
        have := last_eq hsuff
        simp at this
      · simpa [hpq] using ih p (by simpa [hpq] using htodo) (by simpa [hpq] using hok)
    | idle _ _ => exact ih p htodo hok

end LibQuo.AutoDistrib.Call
