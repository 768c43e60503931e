import LibQuo.Bind.Stack
import LibQuo.Lib.Population

/-!
The binding calls of the bundled `hwloc` on Linux (`topology-linux.c`). A process is bound
thread by thread, while its other threads may start new ones and end: the list of threads is
read again after a pass over it, and the pass is made again if the list is not the same.
-/

namespace LibQuo.Bind
open CMem Population

/-- What `sched_setaffinity` makes of a set, if it takes it. -/
abbrev Kernel := Cpuset → Option Cpuset

abbrev Threads := Sys Cpuset

/-- The part of the binding calls that is about one thread: from a thread, its place in the
list and the data of the call to the result, the data and the threads. -/
abbrev TidCb (σ : Type) := Nat → Nat → σ → Threads → Bool × σ × Threads

variable {σ : Type} (world : World) (kernel : Kernel) (topo : Topology)

def setTidCpubind (tid : Nat) (set : Cpuset) (s : Threads) : Bool × Threads :=
  if set = ∅ then (false, s)
  else
    let r := s.turn world
    if r.1 then (false, r.2)
    else match r.2.pop.read tid, kernel set with
      | some _, some mask => (true, r.2.write tid mask)
      | _, _ => (false, r.2)

def getTidCpubind (tid : Nat) (s : Threads) : Option Cpuset × Threads :=
  let r := s.turn world
  if r.1 then (none, r.2) else ((r.2.pop.read tid).map topo.cutMask, r.2)

def getProcTids (s : Threads) : Option (List Nat) × Threads :=
  let r := s.turn world
  (if r.1 then none else some r.2.pop.tids, r.2)

/-- The loop over the threads, with the number of those that failed. -/
def applyAll (cb : TidCb σ) : List Nat → Nat → σ → Threads → Nat × σ × Threads
  | [], _, data, s => (0, data, s)
  | tid :: tids, i, data, s =>
    let r := cb tid i data s
    let rest := applyAll cb tids (i + 1) r.2.1 r.2.2
    (rest.1 + (if r.1 then 0 else 1), rest.2)

inductive Pass
  | done (ok : Bool)
  | retry (tids : List Nat)
  deriving DecidableEq, Repr

/-- One pass over the threads, and the look at the list after it. -/
def pass (cb : TidCb σ) (tids : List Nat) (data : σ) (s : Threads) : Pass × σ × Threads :=
  let r := applyAll cb tids 0 data s
  let failed := r.1
  match getProcTids world r.2.2 with
  | (none, s) => (.done false, r.2.1, s)
  | (some newtids, s) =>
    if newtids ≠ tids ∨ (failed ≠ 0 ∧ failed ≠ tids.length) then (.retry newtids, r.2.1, s)
    else (.done (failed = 0), r.2.1, s)

/-- The passes of `hwloc_linux_foreach_proc_tid`, when there are `left` retries left. -/
def passes (cb : TidCb σ) (left : Nat) (tids : List Nat) (data : σ) (s : Threads) :
    Bool × σ × Threads :=
  match pass world cb tids data s with
  | (.done ok, data, s) => (ok, data, s)
  | (.retry newtids, data, s) =>
    match left with
    | 0 => (false, data, s)
    | left + 1 => passes cb left newtids data s

/-- `hwloc_linux_foreach_proc_tid`: its result, the data and the threads it leaves. -/
def foreachProcTid (cb : TidCb σ) (data : σ) (s : Threads) : Bool × σ × Threads :=
  let opened := s.turn world
  if opened.1 then (false, data, opened.2)
  else match getProcTids world opened.2 with
    | (none, s) => (false, data, s)
    | (some tids, s) => passes world cb 10 tids data s

def setCpubindCb (set : Cpuset) : TidCb Unit := fun tid _ _ s =>
  let r := setTidCpubind world kernel tid set s
  (r.1, (), r.2)

/-- `hwloc_linux_foreach_proc_tid_get_cpubind_cb` without `HWLOC_CPUBIND_STRICT`. -/
def getCpubindCb : TidCb Cpuset := fun tid idx cpuset s =>
  match getTidCpubind world topo tid s with
  | (none, s) => (false, cpuset, s)
  | (some tidset, s) => (true, (if idx = 0 then ∅ else cpuset) ∪ tidset, s)

def setPidCpubind (set : Cpuset) (s : Threads) : Bool × Threads :=
  let r := foreachProcTid world (setCpubindCb world kernel set) () s
  (r.1, r.2.2)

/-- `hwloc_linux_get_pid_cpubind` into a set that is empty. -/
def getPidCpubind (s : Threads) : Bool × Cpuset × Threads :=
  foreachProcTid world (getCpubindCb world topo) ∅ s

/-- `hwloc_set_cpubind` with `HWLOC_CPUBIND_PROCESS`. -/
def hwlocSetCpubind (set : Cpuset) (s : Threads) : Bool × Threads :=
  match topo.fixCpubind set with
  | none => (false, s)
  | some set => setPidCpubind world kernel set s

/-- What the calls make of a process all of whose threads have one mask. -/
def Kernel.hooks (kernel : Kernel) : Hooks :=
  ⟨fun topo set => (topo.fixCpubind set).bind kernel, Topology.cutMask⟩

/-! ## The passes -/

variable {world kernel topo} {cb : TidCb σ} {data : σ} {s : Threads} {tids : List Nat}
  {P : Cpuset → Prop}

/-- A callback that does not take `P` from the masks of all threads. -/
def KeepsAll (cb : TidCb σ) (P : Cpuset → Prop) : Prop :=
  ∀ tid i data (s : Threads), s.pop.All P → (cb tid i data s).2.2.pop.All P

theorem applyAll_cons {tid i : Nat} : (applyAll cb (tid :: tids) i data s).1 = 0 ↔
    (cb tid i data s).1 = true ∧
      (applyAll cb tids (i + 1) (cb tid i data s).2.1 (cb tid i data s).2.2).1 = 0 := by
  rw [applyAll, Nat.add_eq_zero_iff]
  cases (cb tid i data s).1 <;> simp

theorem applyAll_keeps (hcb : KeepsAll cb P) {i : Nat} (h : s.pop.All P) :
    (applyAll cb tids i data s).2.2.pop.All P := by
  induction tids generalizing i data s with
  | nil => exact h
  | cons tid tids ih => exact ih (hcb tid i data s h)

/-- A pass leaves what its loop leaves, one turn later. -/
theorem pass_snd (world : World) (cb : TidCb σ) (tids : List Nat) (data : σ) (s : Threads) :
    (pass world cb tids data s).2 = ((applyAll cb tids 0 data s).2.1,
      ((applyAll cb tids 0 data s).2.2.turn world).2) := by
  unfold pass getProcTids
  cases hturn : ((applyAll cb tids 0 data s).2.2.turn world).1 with
  | true => simp only [hturn, if_true]
  | false =>
    simp only [hturn, Bool.false_eq_true, if_false]
    split
    · rfl
    · rfl

theorem pass_keeps (world : World) (tids : List Nat) (data : σ) (hcb : KeepsAll cb P)
    (h : s.pop.All P) :
    (pass world cb tids data s).2.2.pop.All P := by
  rw [pass_snd]
  exact Sys.turn_all _ (applyAll_keeps hcb h)

theorem passes_keeps (hcb : KeepsAll cb P) {left : Nat} (h : s.pop.All P) :
    (passes world cb left tids data s).2.2.pop.All P := by
  induction left generalizing tids data s with
  | zero =>
    have hpass := pass_keeps world tids data hcb h
    unfold passes
    split
    next heq => rwa [heq] at hpass
    next heq => rwa [heq] at hpass
  | succ left ih =>
    have hpass := pass_keeps world tids data hcb h
    unfold passes
    split
    next heq => rwa [heq] at hpass
    next heq =>
      rw [heq] at hpass
      exact ih hpass

/-- Whatever becomes of the passes, they do nothing but what the callback does. -/
theorem foreachProcTid_keeps (hcb : KeepsAll cb P) (h : s.pop.All P) :
    (foreachProcTid world cb data s).2.2.pop.All P := by
  have hopen := Sys.turn_all world h
  have hread := Sys.turn_all world hopen
  unfold foreachProcTid getProcTids
  dsimp only
  split
  · exact hopen
  · cases ((s.turn world).2.turn world).1 with
    | true => exact hread
    | false => exact passes_keeps hcb hread

/-- The result `r` is that of a pass over `tids` in which no thread has failed, and after
which these are the threads of the process. -/
structure LastPass (world : World) (cb : TidCb σ) (tids : List Nat) (data : σ) (s : Threads)
    (r : σ × Threads) : Prop where
  failed : (applyAll cb tids 0 data s).1 = 0
  dataLeft : r.1 = (applyAll cb tids 0 data s).2.1
  threadsLeft : r.2 = ((applyAll cb tids 0 data s).2.2.turn world).2
  same : r.2.pop.tids = tids

theorem pass_done (h : (pass world cb tids data s).1 = .done true) :
    LastPass world cb tids data s (pass world cb tids data s).2 := by
  have hsnd := pass_snd world cb tids data s
  unfold pass getProcTids at h
  cases hturn : ((applyAll cb tids 0 data s).2.2.turn world).1 with
  | true => simp [hturn] at h
  | false =>
    simp only [hturn, Bool.false_eq_true, if_false] at h
    split at h
    case isTrue => simp at h
    case isFalse hsame =>
      rw [not_or, not_not] at hsame
      refine ⟨by simpa using h, by rw [hsnd], by rw [hsnd], ?_⟩
      rw [hsnd]
      exact hsame.1

theorem passes_true {left : Nat} (h : (passes world cb left tids data s).1 = true) :
    ∃ tids' data' s', LastPass world cb tids' data' s' (passes world cb left tids data s).2 := by
  induction left generalizing tids data s with
  | zero =>
    cases hpass : pass world cb tids data s with
    | mk outcome r =>
      rw [passes, hpass] at h ⊢
      cases outcome with
      | done ok =>
        obtain rfl : ok = true := h
        have hlast := pass_done (congrArg Prod.fst hpass)
        rw [hpass] at hlast
        exact ⟨_, _, _, hlast⟩
      | retry newtids => simp at h
  | succ left ih =>
    cases hpass : pass world cb tids data s with
    | mk outcome r =>
      rw [passes, hpass] at h ⊢
      cases outcome with
      | done ok =>
        obtain rfl : ok = true := h
        have hlast := pass_done (congrArg Prod.fst hpass)
        rw [hpass] at hlast
        exact ⟨_, _, _, hlast⟩
      | retry newtids => exact ih h

/-- A call that succeeds does so by its last pass. -/
theorem foreachProcTid_true (h : (foreachProcTid world cb data s).1 = true) :
    ∃ tids' data' s', LastPass world cb tids' data' s' (foreachProcTid world cb data s).2 := by
  unfold foreachProcTid getProcTids at h ⊢
  cases hopen : (s.turn world).1 with
  | true => simp [hopen] at h
  | false =>
    cases hread : ((s.turn world).2.turn world).1 with
    | true => simp [hopen, hread] at h
    | false =>
      simp only [hopen, hread, Bool.false_eq_true, if_false] at h ⊢
      exact passes_true h

/-! ## Binding all threads -/

variable {set mask live : Cpuset} {tid : Nat}

/-- A thread is bound, or no mask is changed. -/
theorem setTidCpubind_cases (world : World) (kernel : Kernel) (tid : Nat) (set : Cpuset)
    (s : Threads) :
    (∃ mask, kernel set = some mask ∧ (s.turn world).2.pop.read tid ≠ none ∧
        setTidCpubind world kernel tid set s = (true, (s.turn world).2.write tid mask)) ∨
      setTidCpubind world kernel tid set s = (false, s) ∨
      setTidCpubind world kernel tid set s = (false, (s.turn world).2) := by
  unfold setTidCpubind
  split
  case isTrue => exact .inr (.inl rfl)
  case isFalse =>
    dsimp only
    split
    case isTrue => exact .inr (.inr rfl)
    case isFalse =>
      cases hread : (s.turn world).2.pop.read tid with
      | none => exact .inr (.inr rfl)
      | some old =>
        cases hkernel : kernel set with
        | none => exact .inr (.inr rfl)
        | some mask => exact .inl ⟨mask, rfl, by simp, rfl⟩

/-- A loop without failures has bound every thread of the list that is still there. -/
theorem applyAll_set {i : Nat} {ids : List Nat} {Q : Nat → Cpuset → Prop}
    (hQ : ∀ mask, kernel set = some mask → ∀ i, Q i mask) (hs : s.pop.Seen ids Q)
    (h : (applyAll (setCpubindCb world kernel set) tids i () s).1 = 0) :
    (applyAll (setCpubindCb world kernel set) tids i () s).2.2.pop.Seen (tids ++ ids) Q := by
  induction tids generalizing i ids s with
  | nil => exact hs
  | cons tid tids ih =>
    obtain ⟨hok, hrest⟩ := applyAll_cons.mp h
    rcases setTidCpubind_cases world kernel tid set s with
      ⟨mask, hkernel, hread, heq⟩ | heq | heq
    · obtain ⟨old, hold⟩ := Option.ne_none_iff_exists'.mp hread
      have hused := (s.turn world).2.pop.used_of_mem _ (Pop.read_eq_some.mp hold)
      have hfirst : (setCpubindCb world kernel set tid i () s).2.2.pop.Seen (tid :: ids) Q := by
        rw [setCpubindCb, heq]
        exact (Sys.turn_seen _ hs).write hused (hQ mask hkernel tid)
      refine (ih hfirst hrest).of_subset fun j hj => ?_
      simp only [List.mem_append, List.mem_cons] at hj ⊢
      tauto
    · simp [setCpubindCb, heq] at hok
    · simp [setCpubindCb, heq] at hok

/-- When the call succeeds, all threads of the process have the mask: those that were there,
and those that were started while it ran. -/
theorem setPidCpubind_true (h : (setPidCpubind world kernel set s).1 = true) :
    ∃ mask, kernel set = some mask ∧
      (setPidCpubind world kernel set s).2.pop.All fun v => v = mask := by
  obtain ⟨tids, data, s', hlast⟩ := foreachProcTid_true h
  have hseen := applyAll_set (Q := fun _ v => kernel set = some v) (fun _ h _ => h)
    (s'.pop.seen_nil _) hlast.failed
  have hall : (setPidCpubind world kernel set s).2.pop.All fun v => kernel set = some v := by
    have hturn := Sys.turn_seen world hseen
    rw [List.append_nil, ← hlast.threadsLeft, ← hlast.same] at hturn
    exact hturn.all
  obtain ⟨t, ht⟩ := Pop.exists_task (setPidCpubind world kernel set s).2.pop
  refine ⟨t.value, hall t ht, fun u hu => ?_⟩
  exact Option.some.inj ((hall u hu).symm.trans (hall t ht))

/-! ## Reading all threads -/

theorem getCpubindCb_keeps : KeepsAll (getCpubindCb world topo) P := by
  intro tid i data s h
  have hturn := Sys.turn_all world h
  unfold getCpubindCb getTidCpubind
  dsimp only
  cases (s.turn world).1 with
  | true => exact hturn
  | false => cases (s.turn world).2.pop.read tid <;> exact hturn

theorem getPidCpubind_all (h : s.pop.All P) : (getPidCpubind world topo s).2.2.pop.All P :=
  foreachProcTid_keeps getCpubindCb_keeps h

/-- A thread has been read, or no result is taken from it. -/
theorem getTidCpubind_cases (world : World) (topo : Topology) (tid : Nat) (s : Threads) :
    (∃ mask, (s.turn world).2.pop.read tid = some mask ∧
        getTidCpubind world topo tid s = (some (topo.cutMask mask), (s.turn world).2)) ∨
      getTidCpubind world topo tid s = (none, (s.turn world).2) := by
  unfold getTidCpubind
  dsimp only
  split
  case isTrue => exact .inr rfl
  case isFalse =>
    cases hread : (s.turn world).2.pop.read tid with
    | none => exact .inr rfl
    | some mask => exact .inl ⟨mask, rfl, rfl⟩

/-- A loop without failures has read every thread of the list: `log` has what it has read. -/
theorem applyAll_get {i : Nat} {cpuset : Cpuset}
    (h : (applyAll (getCpubindCb world topo) tids i cpuset s).1 = 0) :
    ∃ log : List (Nat × Cpuset), log.map Prod.fst = tids ∧
      (tids ≠ [] ∨ i ≠ 0 → ∀ x, x ∈ (applyAll (getCpubindCb world topo) tids i cpuset s).2.1 ↔
        (i ≠ 0 ∧ x ∈ cpuset) ∨ ∃ e ∈ log, x ∈ topo.cutMask e.2) ∧
      ∀ ids Q, s.pop.Seen ids Q →
        (applyAll (getCpubindCb world topo) tids i cpuset s).2.2.pop.Seen (tids ++ ids)
          fun j v => (j, v) ∈ log ∨ Q j v := by
  induction tids generalizing i cpuset s with
  | nil =>
    refine ⟨[], rfl, fun hi x => ?_, fun ids Q hs => hs.mono fun j _ v hv => .inr hv⟩
    have hne : i ≠ 0 := hi.resolve_left (not_not.mpr rfl)
    simp [applyAll, hne]
  | cons tid tids ih =>
    obtain ⟨hok, hrest⟩ := applyAll_cons.mp h
    rcases getTidCpubind_cases world topo tid s with ⟨mask, hread, heq⟩ | heq
    · have hfirst : getCpubindCb world topo tid i cpuset s =
          (true, (if i = 0 then ∅ else cpuset) ∪ topo.cutMask mask, (s.turn world).2) := by
        rw [getCpubindCb, heq]
      obtain ⟨log, hlog, hdata, hseen⟩ := ih hrest
      rw [hfirst] at hdata hseen
      refine ⟨(tid, mask) :: log, by simp [hlog], fun _ x => ?_, fun ids Q hs => ?_⟩
      · rw [applyAll, hfirst, hdata (.inr (Nat.succ_ne_zero i))]
        cases i with
        | zero => simp
        | succ i => simp [or_assoc]
      · have hone : (s.turn world).2.pop.Seen (tid :: ids) fun j v =>
            (j, v) = (tid, mask) ∨ Q j v :=
          ((Sys.turn_seen _ hs).mono fun _ _ _ => .inr).read hread (.inl rfl)
        rw [applyAll, hfirst]
        refine ((hseen _ _ hone).of_subset fun j hj => ?_).mono fun j _ v hv => ?_
        · simp only [List.mem_append, List.mem_cons] at hj ⊢
          tauto
        · rw [List.mem_cons]
          tauto
    · simp [getCpubindCb, heq] at hok

/-- When the call succeeds, its result is the union of the masks of all threads of the
process, as far as the topology knows their units. -/
theorem getPidCpubind_true (h : (getPidCpubind world topo s).1 = true) (x : Nat) :
    x ∈ (getPidCpubind world topo s).2.1 ↔
      ∃ t ∈ (getPidCpubind world topo s).2.2.pop.tasks, x ∈ topo.cutMask t.value := by
  obtain ⟨tids, data, s', hlast⟩ := foreachProcTid_true h
  obtain ⟨log, hlog, hdata, hseen⟩ := applyAll_get hlast.failed
  have hne : tids ≠ [] := by
    rw [← hlast.same]
    exact Pop.tids_ne_nil _
  have hread := Sys.turn_seen world (hseen [] (fun _ _ => False) (s'.pop.seen_nil _))
  rw [List.append_nil, ← hlast.threadsLeft, ← hlast.same] at hread
  have hknown := hread.all
  have hmem : x ∈ (getPidCpubind world topo s).2.1 ↔ ∃ e ∈ log, x ∈ topo.cutMask e.2 := by
    rw [getPidCpubind, hlast.dataLeft, hdata (.inl hne)]
    simp
  rw [hmem]
  constructor
  · rintro ⟨e, he, hx⟩
    have hid : e.1 ∈ (getPidCpubind world topo s).2.2.pop.tids := by
      rw [getPidCpubind, hlast.same, ← hlog]
      exact List.mem_map_of_mem he
    obtain ⟨t, ht, htid⟩ := List.mem_map.mp hid
    have hpair : (t.tid, t.value) ∈ log := (hknown t ht).resolve_right id
    have hnodup : (log.map Prod.fst).Nodup := by
      rw [hlog, ← hlast.same]
      exact Pop.nodup _
    have hsame : (t.tid, t.value) = e := List.inj_on_of_nodup_map hnodup hpair he htid
    exact ⟨t, ht, by rw [show t.value = e.2 from congrArg Prod.snd hsame]; exact hx⟩
  · rintro ⟨t, ht, hx⟩
    exact ⟨_, (hknown t ht).resolve_right id, hx⟩

end LibQuo.Bind
