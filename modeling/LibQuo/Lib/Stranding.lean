import LibQuo.Lib.Spmd
import Mathlib.Data.Fintype.Basic
import Mathlib.Data.Finset.Max

/-!
When a local failure strands the other processes. A process is stranded when it
is inside a collective that another one, already gone with an error, was to
enter as well. If the outcome of every local action is fixed beforehand, this
cannot happen exactly when all processes enter equally many collectives.
-/

namespace Spmd

variable {n : Nat} {Act Coll Chan Loc World Val ε : Type} [DecidableEq Chan]
variable {P : Protocol n Act Coll Chan Loc World Val ε}
variable {s t : Group n Act Coll Loc World Val ε} {fails : Fin n → Act → Bool}

/-- `q` is inside a collective, and `p` has returned an error without having entered the
matching one. A root inside a broadcast of its own counts as waiting too: the library may keep
it there until all have entered, though it need not. -/
def StrandedBy (P : Protocol n Act Coll Chan Loc World Val ε)
    (s : Group n Act Coll Loc World Val ε) (p q : Fin n) : Prop :=
  (s.proc p).failed.isSome ∧ (s.proc q).inside = true ∧
    ∃ c rest, (s.proc q).todo = .coll c :: rest ∧
      (onChan P (P.chan c) (s.posted p)).length < (onChan P (P.chan c) (s.posted q)).length

def NeverStrands (P : Protocol n Act Coll Chan Loc World Val ε) : Prop :=
  ∀ s, Reachable P s → ∀ p q, ¬StrandedBy P s p q

def Returned (s : Group n Act Coll Loc World Val ε) (p : Fin n) : Prop :=
  (s.proc p).todo = [] ∨ (s.proc p).failed.isSome

/-- Whoever has returned has returned the same: success or failure. -/
def EndsAlike (P : Protocol n Act Coll Chan Loc World Val ε) : Prop :=
  ∀ s, Reachable P s → ∀ p q, Returned s p → Returned s q →
    ((s.proc p).failed.isSome ↔ (s.proc q).failed.isSome)

/-- How many collectives a script enters before its first failing action. -/
def exits (fails : Act → Bool) : List (Instr Act Coll) → Nat
  | [] => 0
  | .act a :: t => if fails a then 0 else exits fails t
  | .coll _ :: t => exits fails t + 1

omit [DecidableEq Chan] in
theorem exits_le (fails : Act → Bool) (xs : List (Instr Act Coll)) :
    exits fails xs ≤ (colls xs).length := by
  induction xs with
  | nil => exact le_rfl
  | cons x xs ih =>
    cases x with
    | act a =>
      simp only [exits, colls]
      split
      · exact Nat.zero_le _
      · exact ih
    | coll c => simpa [exits, colls] using ih

omit [DecidableEq Chan] in
theorem exits_eq_zero (fails : Act → Bool) {xs : List (Instr Act Coll)} (h : colls xs = []) :
    exits fails xs = 0 := by
  have := exits_le fails xs
  rw [h] at this
  exact Nat.le_zero.mp this

omit [DecidableEq Chan] in
theorem colls_ne_nil (fails : Act → Bool) {xs : List (Instr Act Coll)} (h : 0 < exits fails xs) :
    colls xs ≠ [] := by
  intro hnil
  rw [exits_eq_zero fails hnil] at h
  exact lt_irrefl 0 h

omit [DecidableEq Chan] in
theorem exits_append (fails : Act → Bool) {xs ys : List (Instr Act Coll)}
    (h : ∀ a, .act a ∈ xs → fails a = false) :
    exits fails (xs ++ ys) = (colls xs).length + exits fails ys := by
  induction xs with
  | nil => simp [colls]
  | cons x xs ih =>
    have ih := ih fun a ha => h a (List.mem_cons_of_mem _ ha)
    cases x with
    | act a => simpa [exits, colls, h a List.mem_cons_self] using ih
    | coll c =>
      simp only [List.cons_append, exits, colls, List.length_cons, ih]
      omega

omit [DecidableEq Chan] in
/-- Where nothing fails, all collectives are entered. -/
theorem exits_eq_length (fails : Act → Bool) {xs : List (Instr Act Coll)}
    (h : ∀ a, .act a ∈ xs → fails a = false) : exits fails xs = (colls xs).length := by
  have happend : exits fails (xs ++ []) = (colls xs).length + exits fails [] := exits_append fails h
  rwa [List.append_nil] at happend

omit [DecidableEq Chan] in
theorem exits_append_of_fails (fails : Act → Bool) {xs ys : List (Instr Act Coll)}
    (hxs : colls xs = []) {a : Act} (ha : .act a ∈ xs) (hf : fails a = true) :
    exits fails (xs ++ ys) = 0 := by
  induction xs with
  | nil => simp at ha
  | cons x xs ih =>
    cases x with
    | act b =>
      by_cases hb : fails b = true
      · simp [exits, hb]
      · have hne : a ≠ b := by
          rintro rfl
          exact hb hf
        simpa [exits, hb] using ih hxs (by simpa [hne] using ha)
    | coll c => simp [colls] at hxs

omit [DecidableEq Chan] in
/-- A block of actions is left at its first failing one, or passed. -/
theorem exits_acts (fails : Act → Bool) (as : List Act) (xs : List (Instr Act Coll)) :
    exits fails (as.map .act ++ xs) = if as.any fails then 0 else exits fails xs := by
  by_cases h : as.any fails = true
  · rw [if_pos h]
    obtain ⟨a, ha, hf⟩ := List.any_eq_true.mp h
    exact exits_append_of_fails fails (colls_acts as) (List.mem_map_of_mem ha) hf
  · rw [if_neg h, exits_append, colls_acts, List.length_nil, Nat.zero_add]
    intro a ha
    obtain ⟨b, hb, hab⟩ := List.mem_map.mp ha
    obtain rfl : b = a := by simpa using hab
    rw [Bool.not_eq_true, List.any_eq_false] at h
    simpa using h b hb

omit [DecidableEq Chan] in
/-- Where all collectives are entered, no action in front of one fails. -/
theorem fails_eq_false_of_exits {fails : Act → Bool} {d rest : List (Instr Act Coll)} {a : Act}
    (h : exits fails (d ++ .act a :: rest) = (colls (d ++ .act a :: rest)).length)
    (hmore : colls rest ≠ []) : fails a = false := by
  have hpos := List.length_pos_iff.mpr hmore
  induction d with
  | nil =>
    by_contra hne
    rw [Bool.not_eq_false] at hne
    simp only [List.nil_append, exits, colls, hne, if_true] at h
    omega
  | cons x d ih =>
    cases x with
    | act b =>
      by_cases hb : fails b = true
      · simp only [List.cons_append, exits, colls, hb, if_true, colls_append,
          List.length_append] at h
        omega
      · exact ih (by simpa [exits, colls, hb] using h)
    | coll c => exact ih (by simpa [exits, colls] using h)

/-- In every run, as long as `p` has collectives to come, its action `a` ends in an
error exactly when `fails p a`. -/
def Determined (P : Protocol n Act Coll Chan Loc World Val ε)
    (fails : Fin n → Act → Bool) : Prop :=
  ∀ s p a rest loc, Reachable P s → s.proc p = ⟨.act a :: rest, false, loc, none⟩ →
    colls rest ≠ [] → (P.exec p a loc s.world).1.isOk = !fails p a

/-! ## How far a process gets -/

/-- What `p` has left and what is before its first failing action add up. -/
def Progress (P : Protocol n Act Coll Chan Loc World Val ε) (fails : Fin n → Act → Bool)
    (s : Group n Act Coll Loc World Val ε) (p : Fin n) : Prop :=
  left s p + exits (fails p) (s.proc p).todo = exits (fails p) (P.script p) ∧
    ((s.proc p).failed.isSome → exits (fails p) (s.proc p).todo = 0)

theorem Determined.progress_step (hd : Determined P fails) {L : List Coll}
    (hL : ∀ p, colls (P.script p) = L) (hr : Reachable P s) (hs : Step P s t) (p : Fin n)
    (h : Progress P fails s p) : Progress P fails t p := by
  cases hs with
  | @act q a rest loc loc' w hq hx =>
    by_cases hpq : p = q
    · subst hpq
      by_cases hmore : colls rest = []
      · have h₀ : exits (fails p) (.act a :: rest) = 0 := exits_eq_zero _ hmore
        have h₁ : exits (fails p) rest = 0 := exits_eq_zero _ hmore
        simpa [Progress, left, hq, h₀, h₁] using h
      · have hok := hd s p a rest loc hr hq hmore
        have hf : fails p a = false := by simpa [hx, Except.isOk, Except.toBool] using hok
        simpa [Progress, left, hq, exits, hf] using h
    · simpa [Progress, left, hpq] using h
  | @fail q a rest loc e w hq hx =>
    by_cases hpq : p = q
    · subst hpq
      by_cases hmore : colls rest = []
      · have h₀ : exits (fails p) (.act a :: rest) = 0 := exits_eq_zero _ hmore
        simpa [Progress, left, hq, h₀] using h
      · have hok := hd s p a rest loc hr hq hmore
        have hf : fails p a = true := by simpa [hx, Except.isOk, Except.toBool] using hok
        simpa [Progress, left, hq, exits, hf] using h
    · simpa [Progress, left, hpq] using h
  | @enter q c rest loc hq =>
    by_cases hpq : p = q
    · subst hpq
      simpa [Progress, left, hq] using h
    · simpa [Progress, left, hpq] using h
  | @leave q c rest loc hq hrel =>
    by_cases hpq : p = q
    · subst hpq
      obtain ⟨log, v, hlog, -⟩ := hr.inside hL (p := p) (by rw [hq]) (by rw [hq])
      obtain ⟨h, -⟩ := h
      refine ⟨?_, by simp⟩
      simp only [left, hq, hlog, exits] at h ⊢
      simp at h ⊢
      omega
    · simpa [Progress, left, hpq] using h
  | idle _ _ => exact h

section Common

variable {L : List Coll} (hL : ∀ p, colls (P.script p) = L)
include hL

/-- Who is stranded has entered more collectives than who has left. -/
theorem StrandedBy.posted_lt (hr : Reachable P s) {p q : Fin n} (h : StrandedBy P s p q) :
    (s.posted p).length < (s.posted q).length := by
  obtain ⟨-, -, c, rest, -, hlt⟩ := h
  by_contra hle
  have := length_onChan_le (P := P) (P.chan c) (hr.posted_prefix hL q) (hr.posted_prefix hL p)
    (not_lt.mp hle)
  omega

/-- So that one has not left behind the last. -/
theorem StrandedBy.colls_ne_nil (hr : Reachable P s) {p q : Fin n} (h : StrandedBy P s p q) :
    colls (s.proc p).todo ≠ [] := by
  intro hnil
  have hlt := h.posted_lt hL hr
  have hle := (hr.posted_prefix hL q).length_le
  have hsum := hr.left_add_colls hL p
  have hleft : left s p ≤ (s.posted p).length := by
    unfold left
    split <;> omega
  rw [hnil, List.length_nil] at hsum
  rw [List.length_map] at hle
  omega

theorem Determined.progress (hd : Determined P fails) (hr : Reachable P s) (p : Fin n) :
    Progress P fails s p := by
  refine hr.invariant (I := fun s => ∀ p, Progress P fails s p) ?_
    (fun s t hr hI hs p => hd.progress_step hL hr hs p (hI p)) p
  intro p
  simp [Progress, left, initial]

theorem Determined.posted_le (hd : Determined P fails) (hr : Reachable P s) (p : Fin n) :
    (s.posted p).length ≤ exits (fails p) (P.script p) := by
  obtain ⟨h, -⟩ := hd.progress hL hr p
  rw [left] at h
  split at h
  · next hin =>
    obtain ⟨-, c, rest, log, v, htodo, hlog⟩ := (hr.wf hL p).inside hin
    rw [htodo, hlog] at h
    rw [hlog]
    simp [exits] at h ⊢
    omega
  · omega

theorem Determined.posted_of_failed (hd : Determined P fails) (hr : Reachable P s) {p : Fin n}
    (hf : (s.proc p).failed.isSome) : (s.posted p).length = exits (fails p) (P.script p) := by
  obtain ⟨h, h₀⟩ := hd.progress hL hr p
  obtain ⟨e, he⟩ := Option.isSome_iff_exists.mp hf
  obtain ⟨hin, -⟩ := (hr.wf hL p).failed e he
  rw [h₀ hf, left, hin] at h
  simpa using h

/-- If all processes enter equally many collectives, nobody is stranded. -/
theorem Determined.not_strandedBy (hd : Determined P fails)
    (heq : ∀ p q, exits (fails p) (P.script p) = exits (fails q) (P.script q)) :
    NeverStrands P := by
  intro s hr p q h
  have hp := hd.posted_of_failed hL hr h.1
  have hq := hd.posted_le hL hr q
  have hlt := h.posted_lt hL hr
  rw [hp, heq p q] at hlt
  exact absurd hq (not_le.mpr hlt)

/-! ## Runs that reach the failure -/

/-- `t` differs from `s` in process `p` and the world only. -/
def OnlyMoved (s t : Group n Act Coll Loc World Val ε) (p : Fin n) : Prop :=
  ∀ q, q ≠ p → t.proc q = s.proc q ∧ t.posted q = s.posted q

omit hL in
omit [DecidableEq Chan] in
theorem OnlyMoved.trans {u : Group n Act Coll Loc World Val ε} {p : Fin n}
    (h₁ : OnlyMoved s t p) (h₂ : OnlyMoved t u p) : OnlyMoved s u p := by
  intro q hq
  obtain ⟨hp₁, hl₁⟩ := h₁ q hq
  obtain ⟨hp₂, hl₂⟩ := h₂ q hq
  exact ⟨hp₂.trans hp₁, hl₂.trans hl₁⟩

omit hL in
/-- An action that does not fail can be taken. -/
theorem Determined.act_step (hd : Determined P fails) (hr : Reachable P s) {p : Fin n} {a : Act}
    {rest : List (Instr Act Coll)} {loc : Loc}
    (hp : s.proc p = ⟨.act a :: rest, false, loc, none⟩) (hmore : colls rest ≠ [])
    (hf : fails p a = false) : ∃ t loc', Step P s t ∧ OnlyMoved s t p ∧ t.posted p = s.posted p ∧
      t.proc p = ⟨rest, false, loc', none⟩ := by
  have hok := hd s p a rest loc hr hp hmore
  rw [hf] at hok
  cases hx : P.exec p a loc s.world with
  | mk r w =>
    cases r with
    | error e => simp [hx, Except.isOk, Except.toBool] at hok
    | ok loc' =>
      refine ⟨_, loc', .act hp hx, ?_, rfl, by simp⟩
      intro q hq
      simp [hq]

omit hL in
/-- A process that fails later runs by itself up to its next collective. -/
theorem Determined.run_to_coll (hd : Determined P fails) {p : Fin n}
    {todo : List (Instr Act Coll)} {loc : Loc} (hr : Reachable P s)
    (hp : s.proc p = ⟨todo, false, loc, none⟩) (hpos : 0 < exits (fails p) todo) :
    ∃ t c rest loc', Steps P s t ∧ OnlyMoved s t p ∧ t.posted p = s.posted p ∧
      t.proc p = ⟨.coll c :: rest, false, loc', none⟩ := by
  induction todo generalizing s loc with
  | nil => simp [exits] at hpos
  | cons x rest ih =>
    cases x with
    | coll c => exact ⟨s, c, rest, loc, .refl, fun _ _ => ⟨rfl, rfl⟩, rfl, hp⟩
    | act a =>
      have hf : fails p a = false := by
        by_contra hne
        rw [Bool.not_eq_false] at hne
        simp [exits, hne] at hpos
      have hpos' : 0 < exits (fails p) rest := by simpa [exits, hf] using hpos
      obtain ⟨t, loc', hs, hmoved, hposted, htp⟩ :=
        hd.act_step hr hp (colls_ne_nil _ hpos') hf
      obtain ⟨u, c, rest', loc'', hsteps, hmoved', hposted', hup⟩ :=
        ih (hr.step hs) htp hpos'
      exact ⟨u, c, rest', loc'', .head hs hsteps, hmoved.trans hmoved',
        hposted'.trans hposted, hup⟩

omit hL in
/-- A process that fails before its next collective runs by itself to its failure. -/
theorem Determined.run_to_fail (hd : Determined P fails) {p : Fin n}
    {todo : List (Instr Act Coll)} {loc : Loc} (hr : Reachable P s)
    (hp : s.proc p = ⟨todo, false, loc, none⟩) (hzero : exits (fails p) todo = 0)
    (hmore : colls todo ≠ []) :
    ∃ t, Steps P s t ∧ OnlyMoved s t p ∧ t.posted p = s.posted p ∧
      (t.proc p).failed.isSome := by
  induction todo generalizing s loc with
  | nil => exact absurd rfl hmore
  | cons x rest ih =>
    cases x with
    | coll c => simp [exits] at hzero
    | act a =>
      by_cases hf : fails p a = true
      · have hok := hd s p a rest loc hr hp hmore
        cases hx : P.exec p a loc s.world with
        | mk r w =>
          cases r with
          | ok loc' => simp [hx, hf, Except.isOk, Except.toBool] at hok
          | error e =>
            refine ⟨_, .single (.fail hp hx), ?_, rfl, by simp⟩
            intro q hq
            simp [hq]
      · have hf' : fails p a = false := by simpa using hf
        obtain ⟨t, loc', hs, hmoved, hposted, htp⟩ := hd.act_step hr hp hmore hf'
        obtain ⟨u, hsteps, hmoved', hposted', hup⟩ :=
          ih (hr.step hs) htp (by simpa [exits, hf'] using hzero) hmore
        exact ⟨u, .head hs hsteps, hmoved.trans hmoved', hposted'.trans hposted, hup⟩

omit hL in
/-- If each process in turn can be taken from `Q` to `R`, all of them can. -/
theorem sweep {Q R : Proc Act Coll Loc ε → List (Coll × Val) → Prop}
    (hmove : ∀ s, Reachable P s → (∀ r, Q (s.proc r) (s.posted r) ∨ R (s.proc r) (s.posted r)) →
      ∀ r, Q (s.proc r) (s.posted r) →
        ∃ t, Steps P s t ∧ OnlyMoved s t r ∧ R (t.proc r) (t.posted r))
    (hr : Reachable P s) (hQ : ∀ r, Q (s.proc r) (s.posted r)) :
    ∃ t, Steps P s t ∧ ∀ r, R (t.proc r) (t.posted r) := by
  have key : ∀ S : Finset (Fin n), ∃ t, Steps P s t ∧
      ∀ r, (r ∈ S → R (t.proc r) (t.posted r)) ∧ (r ∉ S → Q (t.proc r) (t.posted r)) := by
    intro S
    induction S using Finset.induction_on with
    | empty => exact ⟨s, .refl, fun r => ⟨fun h => by simp at h, fun _ => hQ r⟩⟩
    | insert r S hnot ih =>
      obtain ⟨t, hst, ht⟩ := ih
      have hor : ∀ q, Q (t.proc q) (t.posted q) ∨ R (t.proc q) (t.posted q) := by
        intro q
        by_cases hq : q ∈ S
        · exact .inr ((ht q).1 hq)
        · exact .inl ((ht q).2 hq)
      obtain ⟨u, htu, hmoved, hR⟩ := hmove t (hr.steps hst) hor r ((ht r).2 hnot)
      refine ⟨u, hst.trans htu, fun q => ?_⟩
      by_cases hq : q = r
      · subst hq
        exact ⟨fun _ => hR, fun h => absurd (Finset.mem_insert_self q S) h⟩
      · obtain ⟨hp, hl⟩ := hmoved q hq
        rw [hp, hl]
        exact ⟨fun h => (ht q).1 ((Finset.mem_insert.mp h).resolve_left hq),
          fun h => (ht q).2 (fun hS => h (Finset.mem_insert_of_mem hS))⟩
  obtain ⟨t, hst, ht⟩ := key Finset.univ
  exact ⟨t, hst, fun r => (ht r).1 (Finset.mem_univ r)⟩

/-- Between two collectives, having entered `k`. -/
def Between (k : Nat) (pr : Proc Act Coll Loc ε) (log : List (Coll × Val)) : Prop :=
  pr.inside = false ∧ pr.failed = none ∧ log.length = k

/-- Inside the `k`-th collective. -/
def Within (k : Nat) (pr : Proc Act Coll Loc ε) (log : List (Coll × Val)) : Prop :=
  pr.inside = true ∧ log.length = k + 1

/-- A process that fails after the `k`-th collective can enter it. -/
theorem Determined.enter (hd : Determined P fails) (hr : Reachable P s) {k : Nat} {p : Fin n}
    (hk : k < exits (fails p) (P.script p)) (hp : Between k (s.proc p) (s.posted p)) :
    ∃ t, Steps P s t ∧ OnlyMoved s t p ∧ Within k (t.proc p) (t.posted p) := by
  obtain ⟨hin, hfail, hlen⟩ := hp
  obtain ⟨hprog, -⟩ := hd.progress hL hr p
  have hproc : s.proc p = ⟨(s.proc p).todo, false, (s.proc p).loc, none⟩ := by
    rw [← hin, ← hfail]
  have hpos : 0 < exits (fails p) (s.proc p).todo := by
    simp only [left, hin, hlen] at hprog
    simp at hprog
    omega
  obtain ⟨t, c, rest, loc, hst, hmoved, hposted, htp⟩ := hd.run_to_coll hr hproc hpos
  refine ⟨_, hst.tail (.enter htp), hmoved.trans ?_, by simp, by simp [hposted, hlen]⟩
  intro q hq
  simp [hq]

/-- A process whose collective has been entered by those it waits for may leave it. -/
theorem leave_of_matched (hr : Reachable P s) {k : Nat} {p : Fin n}
    (hmatched : ∀ c, L[k]? = some c → Matched P s c k) (hp : Within k (s.proc p) (s.posted p)) :
    ∃ t, Steps P s t ∧ OnlyMoved s t p ∧ Between (k + 1) (t.proc p) (t.posted p) := by
  obtain ⟨hin, hlen⟩ := hp
  obtain ⟨hfail, c, rest, log, v, htodo, -⟩ := (hr.wf hL p).inside hin
  have hproc : s.proc p = ⟨.coll c :: rest, true, (s.proc p).loc, none⟩ := by
    rw [← htodo, ← hin, ← hfail]
  have hleft : left s p = k := by simp [left, hin, hlen]
  obtain ⟨log', v', -, hlog', hc⟩ := hr.inside hL htodo hin
  have hrel : Released P s p c := by
    rw [hr.released_iff hL htodo hin, hleft]
    exact hmatched c (by rw [← hleft, hlog']; exact hc)
  refine ⟨_, .single (.leave hproc hrel), ?_, by simp, by simp, hlen⟩
  intro q hq
  simp [hq]

/-- Once all are inside, each may leave. -/
theorem leave_of_within (hr : Reachable P s) {k : Nat} {p : Fin n}
    (hall : ∀ q, (s.posted q).length = k + 1) (hp : Within k (s.proc p) (s.posted p)) :
    ∃ t, Steps P s t ∧ OnlyMoved s t p ∧ Between (k + 1) (t.proc p) (t.posted p) := by
  refine leave_of_matched hL hr (fun c _ => ?_) hp
  unfold Matched
  split
  · intro q
    rw [hall q]
    exact Nat.lt_succ_self k
  · rw [hall]
    exact Nat.lt_succ_self k

/-- The collectives from the `k`-th up to the `m`-th are broadcasts of `r`. -/
def BroadcastsOf (P : Protocol n Act Coll Chan Loc World Val ε) (L : List Coll) (r : Fin n)
    (k m : Nat) : Prop :=
  ∀ i c, k ≤ i → i < m → L[i]? = some c → P.root c = some r

/-- A process goes by itself through broadcasts that are its own, or that have been
made before. -/
theorem Determined.run_through (hd : Determined P fails) {p r : Fin n} {k m : Nat}
    (hr : Reachable P s) (hkm : k ≤ m) (hp : Between k (s.proc p) (s.posted p))
    (hm : m ≤ exits (fails p) (P.script p)) (hroot : BroadcastsOf P L r k m)
    (hposted : p = r ∨ m ≤ (s.posted r).length) :
    ∃ t, Steps P s t ∧ OnlyMoved s t p ∧ Between m (t.proc p) (t.posted p) := by
  induction m, hkm using Nat.le_induction with
  | base => exact ⟨s, .refl, fun _ _ => ⟨rfl, rfl⟩, hp⟩
  | succ m hkm ih =>
    obtain ⟨t, hst, hmoved, ht⟩ := ih (by omega)
      (fun i c hi him => hroot i c hi (by omega)) (hposted.imp id fun h => by omega)
    have hrt := hr.steps hst
    obtain ⟨u, htu, hmoved', hu⟩ := hd.enter hL hrt (by omega) ht
    have hru := hrt.steps htu
    have hmatched : ∀ c, L[m]? = some c → Matched P u c m := by
      intro c hc
      simp only [Matched, hroot m c hkm (Nat.lt_succ_self m) hc]
      by_cases hpr : p = r
      · subst hpr
        rw [hu.2]
        exact Nat.lt_succ_self m
      · obtain ⟨-, hl⟩ := hmoved r (Ne.symm hpr)
        obtain ⟨-, hl'⟩ := hmoved' r (Ne.symm hpr)
        rw [hl', hl]
        exact hposted.resolve_left hpr
    obtain ⟨v, huv, hmoved'', hv⟩ := leave_of_matched hL hru hmatched hu
    exact ⟨v, (hst.trans htu).trans huv, (hmoved.trans hmoved').trans hmoved'', hv⟩

/-- As long as nobody fails the group can go through the collectives together. -/
theorem Determined.lockstep (hd : Determined P fails) (k : Nat)
    (hk : ∀ p, k ≤ exits (fails p) (P.script p)) :
    ∃ s, Reachable P s ∧ ∀ p, Between k (s.proc p) (s.posted p) := by
  induction k with
  | zero => exact ⟨_, .initial, fun p => ⟨rfl, rfl, rfl⟩⟩
  | succ k ih =>
    obtain ⟨s, hr, hs⟩ := ih fun p => (Nat.le_succ k).trans (hk p)
    obtain ⟨t, hst, ht⟩ := sweep (Q := Between k) (R := Within k)
      (fun s hr _ p hp => hd.enter hL hr (hk p) hp) hr hs
    obtain ⟨u, htu, hu⟩ := sweep (Q := Within k) (R := Between (k + 1))
      (fun s hr hor p hp => leave_of_within hL hr
        (fun q => (hor q).elim (fun h => h.2) (fun h => h.2.2)) hp) (hr.steps hst) ht
    exact ⟨u, (hr.steps hst).steps htu, hu⟩

/-- If all get to the `k`-th collective, and from there `p` alone to its failure, some
run strands a `q` that fails later. -/
theorem Determined.strands_from (hd : Determined P fails) {p q : Fin n} {k : Nat}
    (hall : ∀ r, k ≤ exits (fails r) (P.script r))
    (hroot : BroadcastsOf P L p k (exits (fails p) (P.script p)))
    (hlt : exits (fails p) (P.script p) < exits (fails q) (P.script q)) :
    ∃ s, Reachable P s ∧ StrandedBy P s p q := by
  have hpq : q ≠ p := by
    rintro rfl
    exact lt_irrefl _ hlt
  obtain ⟨s₀, hr₀, hs₀⟩ := hd.lockstep hL k hall
  obtain ⟨s, hs₀s, hmoved₀, hs⟩ := hd.run_through hL hr₀ (hall p) (hs₀ p) le_rfl hroot (.inl rfl)
  have hr : Reachable P s := hr₀.steps hs₀s
  obtain ⟨hin, hfail, hlen⟩ := hs
  have hproc : s.proc p = ⟨(s.proc p).todo, false, (s.proc p).loc, none⟩ := by
    rw [← hin, ← hfail]
  obtain ⟨hprog, -⟩ := hd.progress hL hr p
  have hzero : exits (fails p) (s.proc p).todo = 0 := by
    simp only [left, hin, hlen] at hprog
    simpa using hprog
  have hmore : colls (s.proc p).todo ≠ [] := by
    intro hnil
    have hw := (hr.wf hL p).posted
    rw [pending, hin, hnil] at hw
    have hL' := congrArg List.length hw
    have hq := exits_le (fails q) (P.script q)
    rw [hL q] at hq
    simp [hlen] at hL'
    omega
  obtain ⟨t, hst, hmoved, hposted, hfailed⟩ := hd.run_to_fail hr hproc hzero hmore
  have hrt : Reachable P t := hr.steps hst
  obtain ⟨hqp₀, hql₀⟩ := hmoved₀ q hpq
  obtain ⟨hqp, hql⟩ := hmoved q hpq
  have hbet : Between k (t.proc q) (t.posted q) := by
    rw [hqp, hql, hqp₀, hql₀]
    exact hs₀ q
  have hpost : exits (fails p) (P.script p) ≤ (t.posted p).length := by rw [hposted, hlen]
  obtain ⟨t', htt', hmoved', hbet'⟩ := hd.run_through hL hrt (hall p) hbet hlt.le hroot (.inr hpost)
  obtain ⟨u, htu, hmoved'', hwithin⟩ := hd.enter hL (hrt.steps htt') hlt hbet'
  have hru : Reachable P u := (hrt.steps htt').steps htu
  obtain ⟨hpu, hpl⟩ := (hmoved'.trans hmoved'') p hpq.symm
  obtain ⟨hinq, hlenq⟩ := hwithin
  obtain ⟨-, c, rest, log, v, htodo, hlog⟩ := (hru.wf hL q).inside hinq
  refine ⟨u, hru, by rw [hpu]; exact hfailed, hinq, c, rest, htodo, ?_⟩
  have hle : ¬log.length < (u.posted p).length := by
    rw [hpl, hposted, hlen]
    rw [hlog] at hlenq
    simp at hlenq
    omega
  have hpre := hru.posted_prefix hL q
  rw [hlog] at hpre ⊢
  rw [← onChan_le_iff (P := P) hpre (hru.posted_prefix hL p)] at hle
  exact not_le.mp hle

/-- If `p` fails earlier than `q` and nobody earlier than `p`, some run strands `q`. -/
theorem Determined.strands (hd : Determined P fails) {p q : Fin n}
    (hmin : ∀ r, exits (fails p) (P.script p) ≤ exits (fails r) (P.script r))
    (hlt : exits (fails p) (P.script p) < exits (fails q) (P.script q)) :
    ∃ s, Reachable P s ∧ StrandedBy P s p q :=
  hd.strands_from hL hmin (fun _ _ hi hlt => by omega) hlt

/-- **No stranding.** Nobody is ever stranded exactly when all processes enter
equally many collectives. -/
theorem Determined.neverStrands_iff_exits (hd : Determined P fails) :
    NeverStrands P ↔ ∀ p q, exits (fails p) (P.script p) = exits (fails q) (P.script q) := by
  refine ⟨fun h => ?_, hd.not_strandedBy hL⟩
  by_contra hne
  push Not at hne
  obtain ⟨p, q, hpq⟩ := hne
  obtain ⟨m, -, hm⟩ := Finset.exists_min_image Finset.univ
    (fun r => exits (fails r) (P.script r)) ⟨p, Finset.mem_univ p⟩
  have hmin : ∀ r, exits (fails m) (P.script m) ≤ exits (fails r) (P.script r) :=
    fun r => hm r (Finset.mem_univ r)
  have hlt : ∃ r, exits (fails m) (P.script m) < exits (fails r) (P.script r) := by
    by_cases hp : exits (fails m) (P.script m) < exits (fails p) (P.script p)
    · exact ⟨p, hp⟩
    · have := hmin p
      have := hmin q
      exact ⟨q, by omega⟩
  obtain ⟨r, hr⟩ := hlt
  obtain ⟨s, hs, hstr⟩ := hd.strands hL hmin hr
  exact h s hs m r hstr

end Common

end Spmd
