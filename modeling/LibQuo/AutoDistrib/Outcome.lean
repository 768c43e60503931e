import LibQuo.AutoDistrib.Choice
import LibQuo.AutoDistrib.Snapshot
import LibQuo.Lib.Completion

/-!
What a run of the call comes to: everyone who returns with success has been told whether it is
chosen, for what process 0 has read of the bindings; and a run in which nothing fails does come
to its end, where these are the bindings with which the processes have entered.
-/

namespace LibQuo.AutoDistrib
open CMem Sm Spmd
open SetIntersection (getKSetIntersection)

/-- An allocation that succeeds makes no difference to the intersection. -/
theorem getKSetIntersection_of_ok {malloc : SetIntersection.Site → Bool} {sets : List (List Int)}
    {k : List Int} (h : getKSetIntersection malloc sets = .ok k) :
    getKSetIntersection (fun _ => true) sets = .ok k := by
  unfold getKSetIntersection at h ⊢
  split
  · next hnil => rwa [if_pos hnil] at h
  · next hne =>
    rw [if_neg hne] at h
    obtain ⟨gmax, hgmax, h⟩ := bind_eq_ok.mp h
    rw [hgmax, ok_bind, if_neg (by simp)]
    split at h
    · simp at h
    · obtain ⟨t, ht, h⟩ := bind_eq_ok.mp h
      rw [ht, ok_bind]
      split
      · next hlen => rwa [if_pos hlen] at h
      · next hlen =>
        rw [if_neg hlen] at h
        rw [if_neg (by simp)]
        split at h
        · simp at h
        · exact h

/-- Nor to the selection. -/
theorem selectFrom_of_ok {malloc : Site → Bool} {n : Nat} {my max v : Int} {rows : List (List Int)}
    (h : selectFrom malloc n my max rows = .ok v) :
    selectFrom (fun _ => true) n my max rows = .ok v := by
  unfold selectFrom at h ⊢
  obtain ⟨k, hk, h⟩ := bind_eq_ok.mp h
  rw [getKSetIntersection_of_ok hk, ok_bind]
  split
  · next hnone => rwa [if_pos hnone] at h
  · next hsome =>
    rw [if_neg hsome] at h
    split
    · next hall => rwa [if_pos hall] at h
    · next hpart =>
      rw [if_neg hpart] at h
      rw [if_neg (by simp)]
      split at h
      · simp at h
      · exact h

theorem getElem?_cut {h k : Nat} {rows : List (List Int)} (hk : k < rows.length) :
    (cut h rows)[k]? = some (if k < h then rows.getD k [] else []) := by
  rw [cut, List.getElem?_append, List.length_take]
  by_cases hlt : k < h
  · rw [if_pos (by omega), if_pos hlt, List.getElem?_take_of_lt hlt]
    simp [hk]
  · rw [if_neg (by omega), if_neg hlt, List.getElem?_replicate, if_pos (by omega)]

theorem getElem?_tableOf {n nres k : Nat} (met : Fin n → Fin nres → Prop)
    [∀ q r, Decidable (met q r)] (hk : k < nres) :
    (tableOf met).rankIds[k]? = some (idsMeeting met ⟨k, hk⟩) := by
  simp [tableOf, hk]

namespace Call

variable {n : Nat} [NeZero n] {call : Call n} {E : Reads n}
variable {s t : Group n (Act n) Coll Local (World n) Msg (Halt Int)} {p : Fin n}

/-! ## What is decided -/

/-- By the table that process `p` comes to have, process `q` meets resource `r`. -/
def MetAt (call : Call n) (E : Reads n) (p q : Fin n) (r : Fin call.nres) : Prop :=
  (seen E r q ∩ call.objCpuset r).Nonempty ∧ (p ≠ 0 → (r : Nat) < call.headerInts)

instance (q : Fin n) (r : Fin call.nres) : Decidable (call.MetAt E p q r) :=
  inferInstanceAs (Decidable (_ ∧ _))

theorem rowsAt_eq_tableOf (p : Fin n) :
    call.rowsAt E p = (tableOf (call.MetAt E p)).rankIds := by
  have hseen {k : Nat} (hk : k < call.nres) : (call.rowsSeen E)[k]? = some (call.idsSeen E k) := by
    simp [rowsSeen, hk]
  have hlen : (call.rowsAt E p).length = call.nres := by
    unfold rowsAt rowsRead
    split
    · exact call.length_rowsSeen E
    · rw [length_cut, length_rowsSeen]
  refine List.ext_getElem? fun k => ?_
  by_cases hk : k < call.nres
  · rw [getElem?_tableOf _ hk, rowsAt]
    by_cases hp : p = 0
    · rw [if_pos hp, hseen hk]
      simp [idsSeen, idsAmong, idsMeeting, MetAt, hp]
    · rw [if_neg hp, rowsRead, getElem?_cut (by rwa [length_rowsSeen]), List.getD_eq_getElem?_getD,
        hseen hk]
      by_cases hlt : k < call.headerInts
      · simp [idsSeen, idsAmong, idsMeeting, MetAt, hp, hlt]
      · simp [idsMeeting, MetAt, hp, hlt]
  · rw [List.getElem?_eq_none (by omega), List.getElem?_eq_none]
    simpa [tableOf] using hk

/-- Whoever decides has the table of who meets what. -/
theorem rows_of_decides (hr : Reachable call.protocol s) (h : Decides s p) :
    (s.proc p).loc.rows = (tableOf (call.MetAt s.world.reads p)).rankIds := by
  obtain ⟨hcounts, hrows⟩ := table_of_decides hr h
  rw [← rowsAt_eq_tableOf, Local.rows, hcounts, hrows, lengths, List.zipWith_map_left,
    List.zipWith_self]
  simp

/-- If an answer comes out, it is the choice. -/
theorem decide_eq (hr : Reachable call.protocol s) (h : Decides s p) {v : Int}
    (hv : call.decide p (s.proc p).loc = .ok v) :
    v = if Chosen (call.MetAt s.world.reads p) call.maxQids (mulInt call.maxQids call.nres) p
      then 1 else 0 := by
  unfold Call.decide at hv
  cases hsel : selectFrom (call.malloc p) n p call.maxQids (s.proc p).loc.rows with
  | error e => cases e <;> simp [hsel] at hv
  | ok w =>
    rw [hsel] at hv
    obtain rfl := Except.ok.inj hv
    have hok := selectFrom_of_ok hsel
    rw [rows_of_decides hr h, selectFrom_tableOf] at hok
    exact (Except.ok.inj hok).symm

/-- Once a process uses the segment, what is read is what `seen` says. -/
theorem mem_reads (hr : Reachable call.protocol s) (hleft : 4 < left s p) (r : Fin call.nres)
    (q : Fin n) (b : Cpuset) : ((r : Nat), q, b) ∈ s.world.reads ↔ b = seen s.world.reads r q := by
  have hposted : 4 < (s.posted 0).length := hr.ordered call.colls_script hleft rfl 0
  have hleft₀ : 3 < left s 0 := by
    unfold left
    split
    · omega
    · omega
  have hmem : ((r : Nat), q, b) ∈ readsUpTo s.world.reads call.nres ↔
      (r : Nat) < call.nres ∧ b = seen s.world.reads r q := mem_readsUpTo s.world.reads
  rw [← reads_of_left hr hleft₀] at hmem
  rw [hmem]
  exact and_iff_right r.isLt

omit [NeZero n] in
theorem Fits.metAt_iff (h : call.Fits (call.rowsSeen E)) {q : Fin n} {r : Fin call.nres}
    [NeZero n] : call.MetAt E p q r ↔ (seen E r q ∩ call.objCpuset r).Nonempty :=
  and_iff_left fun _ => by
    rw [h.headerInts]
    exact r.isLt

/-! ## Without failures -/

/-- The decision comes to an answer. -/
theorem NoFailure.decide_isOk (hq : NoFailure call) (hr : Reachable call.protocol s)
    (h : Decides s p) : ∃ v, call.decide p (s.proc p).loc = .ok v := by
  have hmalloc : call.malloc p = fun _ => true := funext (hq.malloc p)
  unfold Call.decide
  rw [hmalloc, rows_of_decides hr h, selectFrom_tableOf]
  exact ⟨_, rfl⟩

/-- Every step succeeds for which the segment is long enough. -/
theorem NoFailure.exec_isOk (hq : NoFailure call) (hmax : 0 < call.maxQids)
    (hres : call.nres ≠ 0) (hr : Reachable call.protocol s) {a : Act n}
    {rest : List (Instr (Act n) Coll)} {loc : Local}
    (hp : s.proc p = ⟨.act a :: rest, false, loc, none⟩)
    (hlacks : p = 0 → call.lacks (call.rowsSeen s.world.reads) a = false) :
    (call.protocol.exec p a loc s.world).1.isOk = true := by
  by_cases ha : a = .decide
  · subst ha
    obtain ⟨v, hv⟩ := hq.decide_isOk hr (p := p) (.inl ⟨rest, loc, hp⟩)
    rw [hp] at hv
    rw [exec_of_noFault (hq.fault p .decide)]
    simp only [perform, hv]
    rfl
  · rw [Call.exec_isOk hr hp ha]
    by_cases hp₀ : p = 0
    · simp [failsFor, hq.fails hmax hres, hlacks hp₀]
    · rw [failsFor_peer hp₀, hq.fails hmax hres]
      rfl

/-- Nobody fails if the table fits. -/
theorem NoFailure.neverFails (hq : NoFailure call) (hmax : 0 < call.maxQids)
    (hres : call.nres ≠ 0) (hfit : call.FitsAlways) : NeverFails call.protocol :=
  fun _ _ a _ _ hr hp => hq.exec_isOk hmax hres hr hp fun _ =>
    (hfit.roomy hres).lacks (length_rowsSeen_flatten_le _) a

/-- Two processes, each bound to one unit of the only resource. -/
def pairCall : Call 2 where
  nobjs := .ok 1
  objCpuset _ := {0, 1}
  maxQids := 1
  segName := .ok ⟨[47, 113], by decide⟩
  keeps _ := false
  fault _ _ := none
  fault_mem := by simp
  malloc _ _ := true
  binding₀ p := {p.val}

theorem pairCall_noFailure : NoFailure pairCall := ⟨fun _ _ => rfl, ⟨_, rfl⟩, fun _ _ => rfl⟩

theorem pairCall_fits : pairCall.FitsAlways := by decide

theorem pairCall_neverFails : NeverFails pairCall.protocol :=
  pairCall_noFailure.neverFails (by decide) (by decide) pairCall_fits

/-- Whatever fails elsewhere, if the packed table is no longer than an `int` can say, process 0
has read one binding of every process for each resource before anyone returns with success, and
whoever does has been told whether it is chosen for these. -/
theorem outcome_chosen (hr : Reachable call.protocol s)
    (hfit : call.Fits (call.rowsSeen s.world.reads)) :
    ∃ held : Fin call.nres → Fin n → Cpuset, ∀ p, (s.proc p).todo = [] →
      (s.proc p).failed = none →
      (∀ (r : Fin call.nres) q b, ((r : Nat), q, b) ∈ s.world.reads ↔ b = held r q) ∧
      (s.proc p).loc.outSelected =
        if Chosen (fun q (r : Fin call.nres) => (held r q ∩ call.objCpuset r).Nonempty)
          call.maxQids (mulInt call.maxQids call.nres) p then 1 else 0 := by
  refine ⟨fun r q => seen s.world.reads r q, fun p htodo hok => ?_⟩
  have hdecides : Decides s p := .inr ⟨htodo, hok⟩
  have hleft : 4 < left s p := by
    rw [left_of_decides hr hdecides]
    omega
  refine ⟨mem_reads hr hleft, ?_⟩
  rw [decide_eq hr hdecides (decided hr p htodo hok)]
  exact if_congr (chosen_congr _ (fun q r => hfit.metAt_iff) _ _ _) rfl rfl

/-- A run of the two processes to its end, and what they have been told. -/
theorem pairCall_outcome : ∃ s, Reachable pairCall.protocol s ∧
    ∃ held : Fin pairCall.nres → Fin 2 → Cpuset, ∀ p, (s.proc p).todo = [] ∧
      (s.proc p).loc.outSelected =
        if Chosen (fun q (r : Fin pairCall.nres) => (held r q ∩ pairCall.objCpuset r).Nonempty)
          pairCall.maxQids (mulInt pairCall.maxQids pairCall.nres) p then 1 else 0 := by
  obtain ⟨s, hr, -, hdone⟩ := pairCall_neverFails.completes pairCall.colls_script
  obtain ⟨held, h⟩ := outcome_chosen hr (pairCall_fits.fits _)
  exact ⟨s, hr, held, fun p => ⟨(hdone p).1, (h p (hdone p).1 (hdone p).2).2⟩⟩

end Call

end LibQuo.AutoDistrib
