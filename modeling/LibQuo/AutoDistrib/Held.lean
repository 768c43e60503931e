import LibQuo.AutoDistrib.Follows

/-!
The runs of the call in which every process keeps one binding from beginning to end. What
process 0 reads is known beforehand in them, and so is which of its steps fail.
-/

namespace LibQuo.AutoDistrib.Call
open CMem Sm Spmd

variable {n : Nat} [NeZero n] (call : Call n) (held : Fin n → Cpuset)

/-- The call when process `p` has and keeps the binding `held p`. -/
def heldProtocol : Protocol n (Act n) Coll Chan Local (World n) Msg (Halt Int) :=
  call.protocol.begunIn ⟨held, fun _ => none, [], .empty⟩

omit [NeZero n] in
def rowsHeld : List (List Int) :=
  (List.range call.nres).map fun rid => idsAmong held (call.objCpuset rid) (List.finRange n)

variable {call held} {s t : Group n (Act n) Coll Local (World n) Msg (Halt Int)}

/-- Before they enter, the processes may come to have any bindings. -/
theorem reachable_of_held (hr : Reachable (call.heldProtocol held) s) :
    Reachable call.protocol s := by
  refine hr.of_begunIn ?_
  have hsome : ∀ ps : Finset (Fin n), Steps call.protocol (initial call.protocol)
      { initial call.protocol with
        world := ⟨fun p => if p ∈ ps then held p else call.binding₀ p, fun _ => none, [],
          .empty⟩ } := by
    intro ps
    induction ps using Finset.induction_on with
    | empty => exact .refl
    | insert p ps _ ih =>
      refine ih.tail (.idle (p := p) (.inl ⟨rfl, rfl⟩) ⟨held p, ?_⟩)
      congr 1
      funext q
      by_cases hq : q = p
      · simp [hq]
      · simp [hq]
  simpa using hsome Finset.univ

/-- The bindings stay, and are what is read. -/
theorem held_run (hr : Reachable (call.heldProtocol held) s) :
    s.world.binding = held ∧ ∀ rid r b, (rid, r, b) ∈ s.world.reads → b = held r := by
  refine hr.invariant (I := fun s => s.world.binding = held ∧
    ∀ rid r b, (rid, r, b) ∈ s.world.reads → b = held r) ?_ ?_
  · exact ⟨rfl, fun rid r b h => absurd h List.not_mem_nil⟩
  · rintro s t - ⟨hbinding, hreads⟩ hs
    have hexec (p : Fin n) (a : Act n) (loc : Local) :
        (call.protocol.exec p a loc s.world).2.binding = held ∧ ∀ rid r b,
          (rid, r, b) ∈ (call.protocol.exec p a loc s.world).2.reads → b = held r := by
      rcases call.exec_world p a loc s.world with ⟨fs, h⟩ | ⟨-, h⟩ | ⟨rid', r', -, h⟩
      · rw [h]
        exact ⟨hbinding, hreads⟩
      · rw [h]
        exact ⟨hbinding, hreads⟩
      · rw [h]
        refine ⟨hbinding, fun rid r b hmem => ?_⟩
        rcases List.mem_append.mp hmem with hmem | hmem
        · exact hreads rid r b hmem
        · obtain ⟨rfl, rfl, rfl⟩ := by simpa using hmem
          rw [hbinding]
    cases hs with
    | @act p a rest loc loc' w hp hx =>
      have hw : (call.protocol.exec p a loc s.world).2 = w := congrArg Prod.snd hx
      exact hw ▸ hexec p a loc
    | @fail p a rest loc e w hp hx =>
      have hw : (call.protocol.exec p a loc s.world).2 = w := congrArg Prod.snd hx
      exact hw ▸ hexec p a loc
    | enter _ => exact ⟨hbinding, hreads⟩
    | leave _ _ => exact ⟨hbinding, hreads⟩
    | idle _ hidle => exact hidle.elim

/-- Once process 0 has broadcast the length, its table is that of the bindings. -/
theorem rowsSeen_held (hr : Reachable (call.heldProtocol held) s) (hleft : 3 < left s 0) :
    call.rowsSeen s.world.reads = call.rowsHeld held := by
  have hreads := reads_of_left (reachable_of_held hr) hleft
  refine List.map_congr_left fun rid hrid => ?_
  have hseen : seen s.world.reads rid = held := by
    funext p
    refine (held_run hr).2 rid p _ ?_
    have hmem : (rid, p, seen s.world.reads rid p) ∈ readsUpTo s.world.reads call.nres :=
      (mem_readsUpTo _).mpr ⟨List.mem_range.mp hrid, rfl⟩
    rwa [← hreads] at hmem
  rw [idsSeen, hseen]

/-- And so the segment is long enough for its next step, or not, as it is for that table. -/
theorem lacks_held (hr : Reachable (call.heldProtocol held) s) {a : Act n}
    (hplace : rootPlace a (left s 0)) :
    call.lacks (call.rowsSeen s.world.reads) a = call.lacks (call.rowsHeld held) a := by
  by_cases hleft : 3 < left s 0
  · rw [rowsSeen_held hr hleft]
  · rw [lacks_of_place hplace (not_lt.mp hleft), lacks_of_place hplace (not_lt.mp hleft)]

/-- Which steps fail is known beforehand. -/
theorem held_determined : Determined (call.heldProtocol held)
    (call.failsFor (call.rowsHeld held)) := by
  intro s p a rest loc hr hp hmore
  have hr' := reachable_of_held hr
  have hexec : ((call.heldProtocol held).exec p a loc s.world).1.isOk =
      !call.failsFor (call.rowsSeen s.world.reads) p a := by
    refine exec_isOk hr' hp ?_
    rintro rfl
    exact hmore (colls_decide hr' hp)
  rw [hexec]
  by_cases hp₀ : p = 0
  · subst hp₀
    rw [failsFor, failsFor,
      lacks_held hr (hr'.place call.colls_script placed_root (by rw [hp]))]
  · rw [failsFor_peer hp₀, failsFor_peer hp₀]

theorem colls_heldProtocol (p : Fin n) : colls ((call.heldProtocol held).script p) = sequence :=
  call.colls_script p

/-- Process 0 cannot make the segment for these bindings, or it is long enough. -/
def Plain (call : Call n) (held : Fin n → Cpuset) : Prop :=
  call.segLen (call.rowsHeld held).flatten.length ≤ 0 ∨
    ∀ a : Act n, call.lacks (call.rowsHeld held) a = false

/-- Then nobody goes out of the segment: whoever fails in front of a collective has a code. -/
theorem Plain.code (hplain : Plain call held) (hr : Reachable (call.heldProtocol held) s)
    {p : Fin n} {e : Halt Int} (hf : (s.proc p).failed = some e)
    (hmore : colls (s.proc p).todo ≠ []) : ∃ c, e = .code c := by
  obtain ⟨t, a, rest, loc, w, ht, hpt, hx, hps⟩ := hr.failed_in hf
  have ht' := reachable_of_held ht
  have hx' : call.protocol.exec p a loc t.world = (.error e, w) := hx
  have hdecide : a ≠ .decide := by
    rintro rfl
    exact hmore (by simpa [hps, colls] using colls_decide ht' hpt)
  refine code_of_error ht' hpt hdecide hx' fun hwrite => ?_
  have hp₀ : p = 0 := by
    by_contra hne
    have hplace := ht'.place call.colls_script (call.placed_peer p hne) (a := a) (by rw [hpt])
    cases a with
    | writeHeader | writeRow k => exact hplace
    | _ => exact hwrite
  subst hp₀
  have hplace := ht'.place call.colls_script placed_root (a := a) (by rw [hpt])
  have hseen : call.rowsSeen t.world.reads = call.rowsHeld held := by
    refine rowsSeen_held ht ?_
    cases a with
    | writeHeader | writeRow k =>
      simp only [rootPlace] at hplace
      omega
    | _ => exact hwrite.elim
  rcases hplain with hshort | hroom
  · have hpos := segLen_pos_of_writes ht' hpt hwrite
    rw [hseen] at hpos
    omega
  · have hok := exec_isOk ht' hpt hdecide
    have hfault : call.fails 0 a = false := by
      cases a with
      | writeHeader | writeRow k => exact fails_eq_false (fault_eq_none rfl) rfl
      | _ => exact hwrite.elim
    rw [failsFor, hfault, hseen, hroom, hx'] at hok
    simp [Except.isOk, Except.toBool] at hok

variable (call held) in
omit [NeZero n] in
theorem length_rowsHeld_flatten_le :
    (call.rowsHeld held).flatten.length ≤ n * call.coverable :=
  call.entries_le (fun _ => held) _

/-- The length of the segment is positive as an `int`, whatever the bindings are. -/
def SegLenPos (call : Call n) : Prop :=
  ∀ held : Fin n → Cpuset, 0 < call.segLen (call.rowsHeld held).flatten.length

omit [NeZero n] in
theorem Roomy.segLenPos (h : call.Roomy) : SegLenPos call := by
  intro held
  have hle := call.length_rowsHeld_flatten_le held
  obtain ⟨hheader, hroom⟩ := h
  rw [segLen_eq, wrapInt_of_range (by omega) (by omega)]
  omega

omit [NeZero n] in
theorem rowsHeld_empty : (call.rowsHeld fun _ => ∅).flatten = [] := by
  simp [rowsHeld, idsAmong]

omit [NeZero n] in
/-- There are bindings for which the segment is long enough, unless there are such for which
it cannot be made. -/
theorem exists_plain (call : Call n) : ∃ held, Plain call held ∧
    (SegLenPos call ∧ (∀ a : Act n, call.lacks (call.rowsHeld held) a = false) ∨
      ¬SegLenPos call ∧ call.segLen (call.rowsHeld held).flatten.length ≤ 0) := by
  by_cases hpos : SegLenPos call
  · have h₀ := hpos fun _ => ∅
    have hrange := call.headerLen_range
    rw [rowsHeld_empty, segLen_eq, List.length_nil, Nat.cast_zero, Int.zero_mul, add_zero,
      wrapInt_of_range hrange.1 hrange.2] at h₀
    have hall : ∀ a : Act n, call.lacks (call.rowsHeld fun _ => ∅) a = false :=
      lacks_of_room h₀ (by
        rw [rowsHeld_empty, List.length_nil]
        omega)
    exact ⟨_, .inr hall, .inl ⟨hpos, hall⟩⟩
  · obtain ⟨held, hheld⟩ := not_forall.mp hpos
    exact ⟨held, .inl (not_lt.mp hheld), .inr ⟨hpos, not_lt.mp hheld⟩⟩

end LibQuo.AutoDistrib.Call
