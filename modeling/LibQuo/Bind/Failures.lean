import LibQuo.Bind.Runs

/-!
Calls that fail, in runs of a context whose calls may fail at any place. A push that
cannot save its binding has already established it; a pop that cannot establish the
binding below has already dropped the last one.
-/

namespace LibQuo.Bind
open CMem Nesting

/-- A call in a run, with the state before it, and what fails in it. -/
structure Attempt where
  before : Process
  call : Call
  faults : Faults

namespace Attempt

variable (hooks : Hooks) (a : Attempt)

def result : Except (Halt Rc) Unit := (a.call.exec hooks a.faults a.before.hwloc a.before.live).1

def after : Process :=
  let r := a.call.exec hooks a.faults a.before.hwloc a.before.live
  ⟨r.2.1, r.2.2⟩

/-- The binding of the process and the stack are what they were before the call. -/
def Unchanged : Prop :=
  (a.after hooks).live = a.before.live ∧
    (a.after hooks).hwloc.bstack.slots = a.before.hwloc.bstack.slots ∧
    (a.after hooks).hwloc.bstack.top = a.before.hwloc.bstack.top

def Harmless : Prop := a.result hooks ≠ .ok () → a.Unchanged hooks

/-- The push would bind the process to `mask`. -/
def Binds (policy : Policy) (type : ObjType) (objIndex : Int32) (mask : Cpuset) : Prop :=
  validBindPolicy policy ∧ a.faults .rebindAlloc = false ∧ a.faults .rebindSet = false ∧
    ∃ obj, Target hooks a.faults a.before.hwloc policy type objIndex.toUInt32.toNat
      a.before.live obj ∧ hooks.setCpubind a.before.hwloc.topo obj.cpuset = some mask

/-- A push that binds the process anew can save the binding. -/
def PushSafe : Prop :=
  match a.call with
  | .push policy type objIndex =>
    ∀ mask, a.Binds hooks policy type objIndex mask →
      mask = a.before.live ∨ Saves a.faults a.before.hwloc.bstack
  | .pop => True

/-- A pop finds nothing at all, or a binding below the last one that it can establish. -/
def PopSafe : Prop :=
  match a.call with
  | .push _ _ _ => True
  | .pop =>
    a.before.hwloc.bstack.top = 0 ∨
      ∃ below, 2 ≤ a.before.hwloc.bstack.top ∧
        a.before.hwloc.bstack.slots[a.before.hwloc.bstack.top - 2]? = some (some below) ∧
        Reverts hooks a.faults a.before.hwloc.topo below

/-- What a call does to the scopes. A call that fails does nothing to them. -/
def event : Event Unit :=
  match a.call, a.result hooks with
  | .push _ _ _, .ok () => .enter ()
  | .pop, .ok () => .leave ()
  | _, .error _ => .other

end Attempt

/-- A call, whether or not it succeeds. -/
inductive Tries (hooks : Hooks) : Process → Attempt → Process → Prop
  | call {p : Process} (c : Call) (f : Faults) :
      Tries hooks p ⟨p, c, f⟩ ((⟨p, c, f⟩ : Attempt).after hooks)

variable {hooks : Hooks} {a : Attempt} {p q : Process} {saved : List Cpuset}

theorem Tries.before (h : Tries hooks p a q) : a.before = p := by
  cases h
  rfl

theorem Tries.after (h : Tries hooks p a q) : a.after hooks = q := by
  cases h
  rfl

/-- What a push does to a stack that holds `saved`. -/
theorem push_cases (hooks : Hooks) {policy : Policy} {type : ObjType} {objIndex : Int32}
    (hc : a.call = .push policy type objIndex) (hh : a.before.hwloc.bstack.Holds saved) :
    (a.result hooks ≠ .ok () ∧ (a.after hooks).hwloc = a.before.hwloc ∧
        (a.after hooks).live = a.before.live ∧ ∀ mask, ¬a.Binds hooks policy type objIndex mask) ∨
      ∃ mask, a.Binds hooks policy type objIndex mask ∧ (a.after hooks).live = mask ∧
        ((Saves a.faults a.before.hwloc.bstack ∧ a.result hooks = .ok () ∧
            (a.after hooks).hwloc.topo = a.before.hwloc.topo ∧
            ∃ set, (a.after hooks).hwloc.bstack.Holds (saved ++ [set])) ∨
          (¬Saves a.faults a.before.hwloc.bstack ∧ a.result hooks ≠ .ok () ∧
            (a.after hooks).hwloc = a.before.hwloc)) := by
  have hbinds (mask : Cpuset) : a.Binds hooks policy type objIndex mask ↔
      validBindPolicy policy ∧ rebind hooks a.faults a.before.hwloc policy type
        objIndex.toUInt32.toNat a.before.live = .ok mask := by
    rw [rebind_ok_iff, Attempt.Binds]
  have hexec : a.call.exec hooks a.faults a.before.hwloc a.before.live =
      bindPush hooks a.faults policy type objIndex.toUInt32.toNat a.before.hwloc a.before.live := by
    rw [hc]
    rfl
  simp only [hbinds, Attempt.result, Attempt.after, hexec]
  rcases bindPush_cases hooks a.faults policy type objIndex.toUInt32.toNat a.before.live hh with
    ⟨e, heq, hrefused⟩ | ⟨mask, hvalid, hrebind, hsave⟩
  · refine .inl ⟨by simp [heq], by rw [heq], by rw [heq], fun mask hmask => ?_⟩
    rcases hrefused with hpolicy | hrebind
    · simp [hpolicy] at hmask
    · simp [hrebind] at hmask
  · refine .inr ⟨mask, ⟨hvalid, hrebind⟩, ?_⟩
    rcases hsave with ⟨hsaves, b', hb', -, heq⟩ | ⟨hnot, e, heq⟩
    · rw [heq]
      exact ⟨rfl, .inl ⟨hsaves, rfl, rfl, _, hb'⟩⟩
    · exact ⟨by rw [heq], .inr ⟨hnot, by simp [heq], by rw [heq]⟩⟩

/-- What a pop does to a stack that holds `saved`. -/
theorem pop_cases (hooks : Hooks) (hc : a.call = .pop) (hh : a.before.hwloc.bstack.Holds saved) :
    (saved = [] ∧ a.result hooks ≠ .ok () ∧ (a.after hooks).hwloc = a.before.hwloc ∧
        (a.after hooks).live = a.before.live) ∨
      (saved ≠ [] ∧ (a.after hooks).hwloc.topo = a.before.hwloc.topo ∧
        (a.after hooks).hwloc.bstack.Holds saved.dropLast ∧
        ((∃ init below, saved.dropLast = init ++ [below] ∧
            Reverts hooks a.faults a.before.hwloc.topo below ∧
            hooks.setCpubind a.before.hwloc.topo below = some (a.after hooks).live ∧
            a.result hooks = .ok ()) ∨
          ((∀ init below, saved.dropLast = init ++ [below] →
              ¬Reverts hooks a.faults a.before.hwloc.topo below) ∧
            a.result hooks ≠ .ok ()))) := by
  have hexec : a.call.exec hooks a.faults a.before.hwloc a.before.live =
      bindPop hooks a.faults a.before.hwloc a.before.live := by
    rw [hc]
    rfl
  simp only [Attempt.result, Attempt.after, hexec]
  rcases bindPop_cases hooks a.faults a.before.live hh with ⟨hnil, heq⟩ | ⟨hne, b', hb', hpop⟩
  · exact .inl ⟨hnil, by simp [heq], by rw [heq], by rw [heq]⟩
  · refine .inr ⟨hne, ?_⟩
    rcases hpop with ⟨init, below, mask, hlast, hrev, hset, -, heq⟩ | ⟨hnot, e, heq⟩
    · rw [heq]
      exact ⟨rfl, hb', .inl ⟨init, below, hlast, hrev, hset, rfl⟩⟩
    · rw [heq]
      exact ⟨rfl, hb', .inr ⟨hnot, by simp⟩⟩

/-- No call leaves the stack in disorder. -/
theorem holds_after (hooks : Hooks) (hh : a.before.hwloc.bstack.Holds saved) :
    ∃ saved', (a.after hooks).hwloc.bstack.Holds saved' := by
  cases hc : a.call with
  | push policy type objIndex =>
    rcases push_cases hooks hc hh with
      ⟨-, hsame, -⟩ | ⟨mask, -, -, ⟨-, -, -, set, hset⟩ | ⟨-, -, hsame⟩⟩
    · exact ⟨saved, by rwa [hsame]⟩
    · exact ⟨_, hset⟩
    · exact ⟨saved, by rwa [hsame]⟩
  | pop =>
    rcases pop_cases hooks hc hh with ⟨-, -, hsame, -⟩ | ⟨-, -, hdrop, -⟩
    · exact ⟨saved, by rwa [hsame]⟩
    · exact ⟨_, hdrop⟩

/-- At every call of a run the stack is in order. -/
theorem holds_before {tr : List Attempt} (hr : Run (Tries hooks) p tr q)
    (hp : ∃ saved, p.hwloc.bstack.Holds saved) (ha : a ∈ tr) :
    ∃ saved, a.before.hwloc.bstack.Holds saved := by
  obtain ⟨u, v, xs, ys, -, hu, hs, -⟩ := hr.mem ha
  rw [hs.before]
  refine hu.invariant (I := fun p => ∃ saved, p.hwloc.bstack.Holds saved) (fun p a q hp hs => ?_) hp
  obtain ⟨saved, hp⟩ := hp
  rw [← hs.before] at hp
  rw [← hs.after]
  exact holds_after hooks hp

/-! ## Pushes -/

/-- A push that fails changes nothing exactly if it can save the binding it establishes,
or establishes none. -/
theorem push_harmless_iff {policy : Policy} {type : ObjType} {objIndex : Int32}
    (hc : a.call = .push policy type objIndex) (hh : a.before.hwloc.bstack.Holds saved) :
    a.Harmless hooks ↔ a.PushSafe hooks := by
  have hsafe : a.PushSafe hooks ↔ ∀ mask, a.Binds hooks policy type objIndex mask →
      mask = a.before.live ∨ Saves a.faults a.before.hwloc.bstack := by
    rw [Attempt.PushSafe, hc]
  rw [hsafe]
  rcases push_cases hooks hc hh with
    ⟨-, hsame, hlive, hnone⟩ | ⟨mask, hmask, hlive, ⟨hsaves, hok, -⟩ | ⟨hnot, hfail, hsame⟩⟩
  · constructor
    · intro _ mask hmask
      exact absurd hmask (hnone mask)
    · intro _ _
      exact ⟨hlive, by rw [hsame], by rw [hsame]⟩
  · exact ⟨fun _ _ _ => .inr hsaves, fun _ hfail => absurd hok hfail⟩
  · constructor
    · intro hharm mask' hmask'
      left
      obtain ⟨hlive', -⟩ := hharm hfail
      obtain ⟨-, -, -, obj, hobj, hset⟩ := hmask
      obtain ⟨-, -, -, obj', hobj', hset'⟩ := hmask'
      obtain rfl := hobj.unique hobj'
      rw [← hlive', hlive]
      exact Option.some.inj (hset'.symm.trans hset)
    · intro hsafe _
      rcases hsafe mask hmask with heq | hsaves
      · exact ⟨hlive.trans heq, by rw [hsame], by rw [hsame]⟩
      · exact absurd hsaves hnot

/-- In every run from a new context, a push that fails changes nothing exactly if it can
save the binding it establishes, or establishes none. -/
theorem failedPush_harmless_iff {f : Faults} {topo : Topology} {b₀ : Cpuset} {h : QuoHwloc}
    {tr : List Attempt} (hc : create hooks f topo b₀ = (.ok (), h))
    (hr : Run (Tries hooks) ⟨h, b₀⟩ tr p) (ha : a ∈ tr) (hpush : a.call ≠ .pop) :
    a.Harmless hooks ↔ a.PushSafe hooks := by
  obtain ⟨-, -, hholds, -⟩ := create_ok hc
  obtain ⟨saved, hh⟩ := holds_before hr ⟨_, hholds⟩ ha
  cases hcall : a.call with
  | pop => exact absurd hcall hpush
  | push policy type objIndex => exact push_harmless_iff hcall hh

/-- A run of calls in which nothing fails that the topology does not refuse. -/
theorem run_after (hooks : Hooks) (p : Process) (calls : List Call) :
    ∃ tr, Run (Tries hooks) p tr (calls.foldl (Process.after hooks) p) := by
  induction calls generalizing p with
  | nil => exact ⟨[], .nil p⟩
  | cons c calls ih =>
    obtain ⟨tr, hr⟩ := ih (p.after hooks c)
    exact ⟨_, .cons (.call c noFaults) hr⟩

/-- A process that is bound to both cores, with a new context. -/
def newProcess : Process := .start .bundled twoCores {0, 1}

theorem newProcess_create : create .bundled noFaults twoCores {0, 1} = (.ok (), newProcess.hwloc) :=
  Prod.ext (by decide +kernel) rfl

def firstPush : Attempt := ⟨newProcess, .push .provided .core 1, noFaults⟩

theorem firstPush_harmless : firstPush.Harmless .bundled :=
  (failedPush_harmless_iff newProcess_create (.cons (.call _ _) (.nil _)) List.mem_cons_self
    (by decide)).mpr fun _ _ => .inr (by decide +kernel)

def fullProcess : Process :=
  (List.replicate 127 (.push .provided .core 0)).foldl (Process.after .bundled) newProcess

def fullPush : Attempt := ⟨fullProcess, .push .provided .core 1, noFaults⟩

/-- A push on the full stack is refused with `QUO_ERR_OOR`, and the process is bound to the
second core and no longer to the first one. -/
theorem fullPush_binds :
    (∃ tr, Run (Tries .bundled) newProcess tr fullProcess) ∧
      fullPush.result .bundled = .error (.code .errOor) ∧
      fullPush.before.live = {0} ∧ (fullPush.after .bundled).live = {1} ∧
      ¬fullPush.Harmless .bundled := by
  have hresult : fullPush.result .bundled = .error (.code .errOor) := by decide +kernel
  have hbefore : fullPush.before.live = {0} := by decide +kernel
  have hafter : (fullPush.after .bundled).live = {1} := by decide +kernel
  refine ⟨run_after .bundled newProcess _, hresult, hbefore, hafter, fun hharm => ?_⟩
  have hlive := (hharm (by rw [hresult]; simp)).1
  rw [hafter, hbefore] at hlive
  exact absurd hlive (by decide)

/-! ## Pops -/

/-- A pop that fails changes nothing exactly if it finds nothing, or a binding that it
can establish. -/
theorem pop_harmless_iff (hc : a.call = .pop) (hh : a.before.hwloc.bstack.Holds saved) :
    a.Harmless hooks ↔ a.PopSafe hooks := by
  have hsafe : a.PopSafe hooks ↔ a.before.hwloc.bstack.top = 0 ∨
      ∃ below, 2 ≤ a.before.hwloc.bstack.top ∧
        a.before.hwloc.bstack.slots[a.before.hwloc.bstack.top - 2]? = some (some below) ∧
        Reverts hooks a.faults a.before.hwloc.topo below := by
    rw [Attempt.PopSafe, hc]
  rw [hsafe]
  rcases pop_cases hooks hc hh with
    ⟨rfl, -, hsame, hlive⟩ | ⟨hne, -, hdrop, ⟨init, below, hlast, hrev, -, hok⟩ | ⟨hnot, hfail⟩⟩
  · exact ⟨fun _ => .inl hh.top, fun _ _ => ⟨hlive, by rw [hsame], by rw [hsame]⟩⟩
  · refine ⟨fun _ => .inr ⟨below, ?_, ?_, hrev⟩, fun _ hfail => absurd hok hfail⟩
    · rw [hh.top, hh.length_of_dropLast hlast]
      omega
    · exact hh.slot_below hlast
  · constructor
    · intro hharm
      have htop := (hharm hfail).2.2
      rw [hdrop.top, hh.top, List.length_dropLast] at htop
      have hpos : 0 < saved.length := List.length_pos_iff.mpr hne
      omega
    · rintro (htop | ⟨below, htwo, hslot, hrev⟩)
      · rw [hh.top] at htop
        exact absurd (List.length_eq_zero_iff.mp htop) hne
      · obtain ⟨init, below', hlast⟩ : ∃ init below', saved.dropLast = init ++ [below'] := by
          have hdropne : saved.dropLast ≠ [] := by
            rw [← List.length_pos_iff, List.length_dropLast, ← hh.top]
            omega
          obtain ⟨init, below', hlast⟩ := (List.eq_nil_or_concat' _).resolve_left hdropne
          exact ⟨init, below', hlast⟩
        have hsame : some (some below) = some (some below') := by
          rw [← hslot, hh.slot_below hlast]
        obtain rfl := Option.some.inj (Option.some.inj hsame)
        exact absurd hrev (hnot init below hlast)

/-- What the pops of a run are to keep: those that fail change nothing, the binding that
was saved at the beginning stays at the bottom, and a push that is popped again is
undone. -/
structure PopLaw (hooks : Hooks) (bottom : Cpuset) (tr : List Attempt) : Prop where
  harmless : ∀ a ∈ tr, a.call = .pop → a.Harmless hooks
  bottom : ∀ a ∈ tr, (a.after hooks).hwloc.bstack.slots[0]? = some (some bottom)
  restores : ∀ u mid v (a a' : Attempt), tr = u ++ a :: (mid ++ a' :: v) →
    a.event hooks = .enter () → Nested (mid.map (·.event hooks)) → a'.call = .pop →
    a'.result hooks = .ok () ∧
      (a'.after hooks).hwloc.bstack.slots = a.before.hwloc.bstack.slots ∧
      (a'.after hooks).hwloc.bstack.top = a.before.hwloc.bstack.top ∧
      ∃ set, a.before.hwloc.bstack.contents.getLast? = some (some set) ∧
        hooks.setCpubind a.before.hwloc.topo set = some (a'.after hooks).live

theorem event_push {policy : Policy} {type : ObjType} {objIndex : Int32}
    (hc : a.call = .push policy type objIndex) :
    a.event hooks = if a.result hooks = .ok () then .enter () else .other := by
  unfold Attempt.event
  rw [hc]
  cases a.result hooks <;> simp

theorem event_pop (hc : a.call = .pop) :
    a.event hooks = if a.result hooks = .ok () then .leave () else .other := by
  unfold Attempt.event
  rw [hc]
  cases a.result hooks <;> simp

theorem event_enter (he : a.event hooks = .enter ()) :
    (∃ policy type objIndex, a.call = .push policy type objIndex) ∧ a.result hooks = .ok () := by
  cases hc : a.call with
  | pop =>
    rw [event_pop hc] at he
    split at he <;> simp at he
  | push policy type objIndex =>
    rw [event_push hc] at he
    split at he
    · next hok => exact ⟨⟨policy, type, objIndex, rfl⟩, hok⟩
    · simp at he

theorem event_leave (he : a.event hooks = .leave ()) : a.call = .pop := by
  cases hc : a.call with
  | pop => rfl
  | push policy type objIndex =>
    rw [event_push hc] at he
    split at he <;> simp at he

/-- A call outside of the scopes has failed. -/
theorem event_other (he : a.event hooks ≠ .enter ()) (he' : a.event hooks ≠ .leave ()) :
    a.result hooks ≠ .ok () := by
  intro hok
  cases hc : a.call with
  | pop =>
    rw [event_pop hc, if_pos hok] at he'
    exact he' rfl
  | push policy type objIndex =>
    rw [event_push hc, if_pos hok] at he
    exact he rfl

/-- A safe pop of a stack that holds something succeeds. -/
theorem safePop_ok (hc : a.call = .pop) (hsafe : a.PopSafe hooks)
    (hh : a.before.hwloc.bstack.Holds saved) (hne : saved ≠ []) :
    a.result hooks = .ok () ∧ (a.after hooks).hwloc.topo = a.before.hwloc.topo ∧
      (a.after hooks).hwloc.bstack.Holds saved.dropLast ∧
      ∃ init below, saved.dropLast = init ++ [below] ∧
        hooks.setCpubind a.before.hwloc.topo below = some (a.after hooks).live := by
  rcases pop_cases hooks hc hh with
    ⟨hnil, -⟩ | ⟨-, htopo, hdrop, ⟨init, below, hlast, -, hset, hok⟩ | ⟨-, hfail⟩⟩
  · exact absurd hnil hne
  · exact ⟨hok, htopo, hdrop, init, below, hlast, hset⟩
  · obtain ⟨-, -, htop⟩ := (pop_harmless_iff hc hh).mpr hsafe hfail
    rw [hdrop.top, hh.top, List.length_dropLast] at htop
    have hpos : 0 < saved.length := List.length_pos_iff.mpr hne
    omega

/-- A context with the binding of the beginning at the bottom of its stack. -/
def Rooted (topo : Topology) (bottom : Cpuset) (p : Process) : Prop :=
  p.hwloc.topo = topo ∧ ∃ rest, p.hwloc.bstack.Holds (bottom :: rest)

/-- A step in which a pop, if it is one, is safe. -/
def Safely (hooks : Hooks) (p : Process) (a : Attempt) (q : Process) : Prop :=
  Tries hooks p a q ∧ (a.call = .pop → a.PopSafe hooks)

variable {topo : Topology} {bottom : Cpuset}

theorem Rooted.step (hp : Rooted topo bottom p) (hs : Safely hooks p a q) :
    Rooted topo bottom q := by
  obtain ⟨ht, hsafe⟩ := hs
  rw [← ht.before] at hp
  rw [← ht.after]
  obtain ⟨htopo, rest, hh⟩ := hp
  cases hc : a.call with
  | push policy type objIndex =>
    rcases push_cases hooks hc hh with
      ⟨-, hsame, -⟩ | ⟨mask, -, -, ⟨-, -, htopo', set, hset⟩ | ⟨-, -, hsame⟩⟩
    · exact ⟨by rw [hsame, htopo], rest, by rwa [hsame]⟩
    · exact ⟨htopo'.trans htopo, rest ++ [set], hset⟩
    · exact ⟨by rw [hsame, htopo], rest, by rwa [hsame]⟩
  | pop =>
    obtain ⟨-, htopo', hdrop, init, below, hlast, -⟩ :=
      safePop_ok hc (hsafe hc) hh (List.cons_ne_nil _ _)
    have hrest : rest ≠ [] := by
      rintro rfl
      simp at hlast
    rw [List.dropLast_cons_of_ne_nil hrest] at hdrop
    exact ⟨htopo'.trans htopo, rest.dropLast, hdrop⟩

/-- Where pops are safe, what succeeds acts on the stack as entering and leaving a scope
does, and what fails does nothing to it. -/
theorem safely_stacked : Stacked (Safely hooks) (·.event hooks) (Rooted topo bottom)
    fun p _ => p.hwloc.bstack.contents where
  keeps _ _ _ hp hs := hp.step hs
  enter p a q k hp hs he := by
    obtain ⟨ht, -⟩ := hs
    rw [← ht.before, ← ht.after]
    rw [← ht.before] at hp
    obtain ⟨-, rest, hh⟩ := hp
    obtain ⟨⟨policy, type, objIndex, hc⟩, hok⟩ := event_enter he
    rcases push_cases hooks hc hh with
      ⟨hfail, -⟩ | ⟨mask, -, -, ⟨-, -, -, set, hset⟩ | ⟨-, hfail, -⟩⟩
    · exact absurd hok hfail
    · refine ⟨some set, ?_⟩
      rw [hset.contents, hh.contents, List.map_append]
      rfl
    · exact absurd hok hfail
  leave p a q k hp hs he := by
    obtain ⟨ht, hsafe⟩ := hs
    rw [← ht.before, ← ht.after]
    rw [← ht.before] at hp
    obtain ⟨-, rest, hh⟩ := hp
    have hc := event_leave he
    obtain ⟨-, -, hdrop, -⟩ := safePop_ok hc (hsafe hc) hh (List.cons_ne_nil _ _)
    rw [hdrop.contents, hh.contents, List.map_dropLast]
  frame p a q k hp hs he he' _ := by
    obtain ⟨ht, hsafe⟩ := hs
    have hfail := event_other he he'
    rw [← ht.before, ← ht.after]
    rw [← ht.before] at hp
    obtain ⟨-, rest, hh⟩ := hp
    cases hc : a.call with
    | push policy type objIndex =>
      rcases push_cases hooks hc hh with
        ⟨-, hsame, -⟩ | ⟨mask, -, -, ⟨-, hok, -⟩ | ⟨-, -, hsame⟩⟩
      · rw [hsame]
      · exact absurd hok hfail
      · rw [hsame]
    | pop =>
      obtain ⟨hok, -⟩ := safePop_ok hc (hsafe hc) hh (List.cons_ne_nil _ _)
      exact absurd hok hfail

/-- A push that is popped again, where all pops are safe. -/
theorem safePair_restores {tr mid v : List Attempt} {a' : Attempt} (hp : Rooted topo bottom p)
    (hr : Run (Safely hooks) p tr q) {u : List Attempt} (htr : tr = u ++ a :: (mid ++ a' :: v))
    (he : a.event hooks = .enter ()) (hn : Nested (mid.map (·.event hooks)))
    (hc' : a'.call = .pop) :
    a'.result hooks = .ok () ∧
      (a'.after hooks).hwloc.bstack.slots = a.before.hwloc.bstack.slots ∧
      (a'.after hooks).hwloc.bstack.top = a.before.hwloc.bstack.top ∧
      ∃ set, a.before.hwloc.bstack.contents.getLast? = some (some set) ∧
        hooks.setCpubind a.before.hwloc.topo set = some (a'.after hooks).live := by
  subst htr
  have hstacked : Stacked (Safely hooks) (·.event hooks) (Rooted topo bottom)
      fun p _ => p.hwloc.bstack.contents := safely_stacked
  obtain ⟨p₁, p₂, p₃, p₄, hu, hpush, hmid, hpop, -⟩ := hr.pair
  have hp₁ := hu.invariant hstacked.keeps hp
  have hp₂ := hstacked.keeps _ _ _ hp₁ hpush
  have hp₃ := hmid.invariant hstacked.keeps hp₂
  obtain ⟨x, hx⟩ := hstacked.enter _ _ _ () hp₁ hpush he
  have hback : p₃.hwloc.bstack.contents = p₂.hwloc.bstack.contents := by
    apply hstacked.nested hmid hn hp₂ ()
    rw [hx]
    simp
  obtain ⟨⟨htopo₁, rest₁, hh₁⟩, htopo₃, rest₃, hh₃⟩ := And.intro hp₁ hp₃
  rw [← hpush.1.before] at hh₁ htopo₁ hx
  rw [← hpop.1.before] at hh₃ htopo₃ hback
  obtain ⟨hok, -, hdrop, init, below, hlast, hset⟩ :=
    safePop_ok hc' (hpop.2 hc') hh₃ (List.cons_ne_nil _ _)
  have hsaved : (bottom :: rest₃).dropLast = bottom :: rest₁ := by
    have hcontents : (bottom :: rest₃).map some = (bottom :: rest₁).map some ++ [x] := by
      rw [← hh₃.contents, hback, hx, hh₁.contents]
    have hdropped := congrArg List.dropLast hcontents
    rw [← List.map_dropLast, List.dropLast_concat] at hdropped
    exact List.map_injective_iff.mpr (Option.some_injective _) hdropped
  rw [hsaved] at hdrop hlast
  refine ⟨hok, (hh₁.same hdrop).1, (hh₁.same hdrop).2, below, ?_, ?_⟩
  · rw [hh₁.contents, hlast]
    simp
  · rw [htopo₁, ← htopo₃]
    exact hset

/-- In every run from a new context, the pops keep their law exactly if every one of them
finds nothing at all or a binding below the last one that it can establish. -/
theorem popLaw_iff {f : Faults} {b₀ : Cpuset} {h : QuoHwloc} {tr : List Attempt}
    (hc : create hooks f topo b₀ = (.ok (), h)) (hr : Run (Tries hooks) ⟨h, b₀⟩ tr p) :
    PopLaw hooks (hooks.procCpubind topo b₀) tr ↔
      ∀ a ∈ tr, a.call = .pop → a.PopSafe hooks := by
  obtain ⟨htopo, -, hholds, -⟩ := create_ok hc
  constructor
  · intro hlaw a ha hpop
    obtain ⟨saved, hh⟩ := holds_before hr ⟨_, hholds⟩ ha
    exact (pop_harmless_iff hpop hh).mp (hlaw.harmless a ha hpop)
  · intro hsafe
    have hstart : Rooted topo (hooks.procCpubind topo b₀) ⟨h, b₀⟩ := ⟨htopo, [], hholds⟩
    have hr' : Run (Safely hooks) ⟨h, b₀⟩ tr p := hr.restrict hsafe
    refine ⟨fun a ha hpop => ?_, fun a ha => ?_, fun u mid v a a' htr he hn hc' =>
      safePair_restores hstart hr' htr he hn hc'⟩
    · obtain ⟨saved, hh⟩ := holds_before hr ⟨_, hholds⟩ ha
      exact (pop_harmless_iff hpop hh).mpr (hsafe a ha hpop)
    · obtain ⟨p₁, p₂, xs, ys, -, hu, hs, -⟩ := hr'.mem ha
      obtain ⟨-, rest, hh⟩ := (hu.invariant (fun _ _ _ hp hs => hp.step hs) hstart).step hs
      rw [hs.1.after, hh.slots]
      rfl

def firstPop : Attempt := ⟨firstPush.after .bundled, .pop, noFaults⟩

theorem firstPop_popLaw : PopLaw .bundled {0, 1} [firstPush, firstPop] := by
  refine (popLaw_iff newProcess_create (.cons (.call _ _) (.cons (.call _ _) (.nil _)))).mpr ?_
  intro a ha hpop
  simp only [List.mem_cons, List.not_mem_nil, or_false] at ha
  rcases ha with rfl | rfl
  · cases hpop
  · exact .inr ⟨{0, 1}, by decide +kernel, by decide +kernel, by decide +kernel⟩

def strayPop : Attempt := ⟨newProcess, .pop, noFaults⟩

/-- It fails with `QUO_ERR_POP`, and the binding that was saved at the beginning is gone. -/
theorem strayPop_loses :
    Run (Tries .bundled) newProcess [strayPop] (strayPop.after .bundled) ∧
      strayPop.result .bundled = .error (.code .errPop) ∧
      (strayPop.after .bundled).hwloc.bstack.top = 0 ∧ ¬strayPop.Harmless .bundled ∧
      ¬PopLaw .bundled {0, 1} [strayPop] := by
  have hresult : strayPop.result .bundled = .error (.code .errPop) := by decide +kernel
  have hafter : (strayPop.after .bundled).hwloc.bstack.top = 0 := by decide +kernel
  have hbefore : strayPop.before.hwloc.bstack.top = 1 := by decide +kernel
  have hnot : ¬strayPop.Harmless .bundled := by
    intro hharm
    have htop := (hharm (by rw [hresult]; simp)).2.2
    rw [hafter, hbefore] at htop
    exact absurd htop (by decide)
  refine ⟨.cons (.call _ _) (.nil _), hresult, hafter, hnot, fun hlaw => ?_⟩
  exact hnot (hlaw.harmless strayPop List.mem_cons_self rfl)

end LibQuo.Bind
