import LibQuo.Lib.Traced
import LibQuo.SetIntersection

/-!
What the loops of `quo_set_get_k_set_intersection` access and count. The functions are
those of `LibQuo.SetIntersection` once more, with a log of every element and every table
cell they touch, of the steps of the two cursors, and of the table at each turn.
-/

namespace LibQuo.SetIntersection
open CMem Traced

inductive Event
  /-- `sets[set][i]` is read. -/
  | read (set i : Nat)
  /-- `big_htab[x]` is accessed. -/
  | cell (x : Int)
  /-- `big_htab` and `ilen` are `t`. -/
  | point (t : Table)
  /-- One of the cursors is advanced. -/
  | advance
  /-- The merge of two sets has ended, and the cursors were advanced so often. -/
  | merged (seta setb advances : Nat)
  /-- `(*res)[j]` is written. -/
  | write (j : Nat)
  deriving DecidableEq, Repr

def advances (log : List Event) : Nat := log.count .advance

/-- The index that an event writes to. -/
def written? : Event → Option Nat
  | .write j => some j
  | _ => none

def writes (log : List Event) : List Nat := log.filterMap written?

def advanceLog (p q : Nat) (s t : List Int) (j : Nat) : Nat → Nat → Traced Event Rc Nat
  | 0, _ => lift (.error (.fault .noFuel))
  | fuel + 1, i =>
      if i < s.length then do
        let x ← event (.read p i) (load s i)
        let y ← event (.read q j) (load t j)
        if x < y then do
          event .advance (.ok ())
          advanceLog p q s t j fuel (i + 1)
        else return i
      else return i

def markLog (x : Int) (t : Table) : Traced Event Rc Table := do
  let cell ← event (.cell x) (loadInt t.htab x)
  if cell = -1 then do
    let htab ← event (.cell x) (storeInt t.htab x x)
    event (.point ⟨htab, t.ilen + 1⟩) (.ok ⟨htab, t.ilen + 1⟩)
  else return t

def mergeLoopLog (seta setb : Nat) (a b : List Int) :
    Nat → Nat → Nat → Table → Traced Event Rc Table
  | 0, _, _, _ => lift (.error (.fault .noFuel))
  | fuel + 1, i, j, t => do
      event (.point t) (.ok ())
      if i < a.length ∧ j < b.length then
        if a.length = 0 ∨ b.length = 0 then return t
        else do
          let i ← advanceLog seta setb a b j (a.length + 1) i
          if i = a.length then return t
          else do
            let j ← advanceLog setb seta b a i (b.length + 1) j
            if j = b.length then return t
            else do
              let x ← event (.read seta i) (load a i)
              let y ← event (.read setb j) (load b j)
              let t ← if x = y then markLog x t else pure t
              event .advance (.ok ())
              event .advance (.ok ())
              mergeLoopLog seta setb a b fuel (i + 1) (j + 1) t
      else return t

def mergePairLog (sets : List (List Int)) (seta : Nat) (t : Table) (setb : Nat) :
    Traced Event Rc Table :=
  if seta = setb then return t
  else do
    let a ← lift (load sets seta)
    let b ← lift (load sets setb)
    (mergeLoopLog seta setb a b (a.length + b.length + 1) 0 0 t).tally
      fun log => .merged seta setb (advances log)

def mergeAllLog (sets : List (List Int)) (t : Table) : Traced Event Rc Table :=
  (List.range sets.length).foldlM
    (fun t seta => (List.range sets.length).foldlM (mergePairLog sets seta) t) t

def fillResLog (htab : List Int) : Nat → Nat → Nat → List Int → Traced Event Rc (List Int)
  | 0, _, _, res => return res
  | k + 1, i, j, res => do
      let cell ← event (.cell i) (load htab i)
      if cell ≠ -1 then do
        let res ← event (.write j) (store res j cell)
        fillResLog htab k (i + 1) (j + 1) res
      else fillResLog htab k (i + 1) j res

/-- What is left to do with the table when all pairs are merged. -/
def resultLog (malloc : Site → Bool) (gmax : Int) (t : Table) : Traced Event Rc (List Int) :=
  if t.ilen = 0 then return []
  else if malloc .res = false then lift (.error (.code .errOor))
  else fillResLog t.htab (gmax + 1).toNat 0 0 (List.replicate t.ilen 0)

def getKSetIntersectionLog (malloc : Site → Bool) (sets : List (List Int)) :
    Traced Event Rc (List Int) :=
  if sets.length = 0 then return []
  else do
    let gmax ← lift (checkSets (-1) sets)
    if malloc .bigHtab = false then lift (.error (.code .errOor))
    else do
      let t ← mergeAllLog sets ⟨List.replicate (gmax + 1).toNat (-1), 0⟩
      resultLog malloc gmax t

section Erasure

variable {a b : List Int}

theorem advanceLog_result (p q : Nat) (j fuel i : Nat) :
    (advanceLog p q a b j fuel i).result = advance a b j fuel i := by
  induction fuel generalizing i with
  | zero => rfl
  | succ fuel ih =>
    rw [advanceLog, advance]
    split
    · simp only [result_bind, result_event]
      congr 1
      funext x
      congr 1
      funext y
      split
      · simp only [result_bind, result_event, ok_bind, ih]
      · rfl
    · rfl

theorem markLog_result (x : Int) (t : Table) : (markLog x t).result = mark x t := by
  rw [markLog, mark]
  simp only [result_bind, result_event, apply_ite result, result_pure]

theorem mergeLoopLog_result (seta setb : Nat) (fuel i j : Nat) (t : Table) :
    (mergeLoopLog seta setb a b fuel i j t).result = mergeLoop a b fuel i j t := by
  induction fuel generalizing i j t with
  | zero => rfl
  | succ fuel ih =>
    rw [mergeLoopLog, mergeLoop]
    simp only [result_bind, result_event, ok_bind, apply_ite result, advanceLog_result,
      markLog_result, result_pure, ih]

theorem mergePairLog_result (sets : List (List Int)) (seta : Nat) (t : Table) (setb : Nat) :
    (mergePairLog sets seta t setb).result = mergePair sets seta t setb := by
  rw [mergePairLog, mergePair]
  split
  · rfl
  · simp only [result_bind, result_lift, result_tally, mergeLoopLog_result]

theorem mergeAllLog_result (sets : List (List Int)) (t : Table) :
    (mergeAllLog sets t).result = mergeAll sets t := by
  simp only [mergeAllLog, mergeAll, result_foldlM, mergePairLog_result]

theorem fillResLog_result (htab : List Int) (k i j : Nat) (res : List Int) :
    (fillResLog htab k i j res).result = fillRes htab k i j res := by
  induction k generalizing i j res with
  | zero => rfl
  | succ k ih =>
    rw [fillResLog, fillRes]
    simp only [result_bind, result_event, apply_ite result, ih]

/-- The log is that of the function itself. -/
theorem getKSetIntersectionLog_result (malloc : Site → Bool) (sets : List (List Int)) :
    (getKSetIntersectionLog malloc sets).result = getKSetIntersection malloc sets := by
  rw [getKSetIntersectionLog, getKSetIntersection]
  simp only [resultLog, result_bind, result_lift, apply_ite result, result_pure,
    mergeAllLog_result, fillResLog_result]

end Erasure

/-- An event that stays inside its array (the result has `resLen` elements), a table that is
counted right, a merge that is short. -/
def Event.Sound (sets : List (List Int)) (gmax : Int) (resLen : Nat) : Event → Prop
  | .read set i => ∃ s, sets[set]? = some s ∧ i < s.length
  | .cell x => 0 ≤ x ∧ x ≤ gmax
  | .point t => t.htab.length = (gmax + 1).toNat ∧ t.ilen = t.htab.countP (· ≠ -1)
  | .advance => True
  | .merged seta setb n => ∃ a b, sets[seta]? = some a ∧ sets[setb]? = some b ∧
      n ≤ a.length + b.length
  | .write j => j < resLen

/-- The table that has recorded some values below `m`. -/
def Recorded (m : Nat) (t : Table) : Prop :=
  ∃ K : Finset Int, (∀ x ∈ K, 0 ≤ x ∧ x < m) ∧ t = Table.of m K

theorem recorded_empty (m : Nat) : Recorded m ⟨List.replicate m (-1), 0⟩ :=
  ⟨∅, by simp, by simp [Table.of, htabOf_empty]⟩

theorem htabOf_countP {m : Nat} {K : Finset Int} (hK : ∀ x ∈ K, 0 ≤ x ∧ x < m) :
    (htabOf m K).countP (· ≠ -1) = K.card := by
  rw [← kept_length hK, kept, List.length_map, ← List.range_eq_range', htabOf, List.countP_map,
    List.countP_eq_length_filter]
  congr 1
  apply List.filter_congr
  intro v _
  by_cases hv : (v : Int) ∈ K
  · simp [hv]
  · simp [hv]

theorem Recorded.length {m : Nat} {t : Table} (h : Recorded m t) : t.htab.length = m := by
  obtain ⟨K, -, rfl⟩ := h
  exact htabOf_length m K

theorem Recorded.counts {m : Nat} {t : Table} (h : Recorded m t) :
    t.ilen = t.htab.countP (· ≠ -1) := by
  obtain ⟨K, hK, rfl⟩ := h
  exact (htabOf_countP hK).symm

theorem mark_recorded {m : Nat} {t t' : Table} {x : Int} (h : Recorded m t) (h₀ : 0 ≤ x)
    (hx : x < m) (hmark : mark x t = .ok t') : Recorded m t' := by
  obtain ⟨K, hK, rfl⟩ := h
  rw [mark_of h₀ hx] at hmark
  refine ⟨insert x K, fun y hy => ?_, (Except.ok.inj hmark).symm⟩
  rcases Finset.mem_insert.mp hy with rfl | hy
  · exact ⟨h₀, hx⟩
  · exact hK y hy

section Accounting

variable {sets : List (List Int)} {gmax : Int} {p q : Nat} {a b : List Int} {t : Table}
  {n : Nat} {log : List Event}

theorem Event.Sound.mono {e : Event} (len : Nat) (h : e.Sound sets gmax 0) :
    e.Sound sets gmax len := by
  cases e with
  | write j => exact absurd h (Nat.not_lt_zero j)
  | _ => exact h

/-- Nothing is written where there is no result yet. -/
theorem writes_eq_nil (h : ∀ e ∈ log, e.Sound sets gmax 0) : writes log = [] := by
  rw [writes, List.filterMap_eq_nil_iff]
  intro e he
  cases e with
  | write j => exact absurd (h _ he) (Nat.not_lt_zero j)
  | _ => rfl

theorem Recorded.sound (h : Recorded (gmax + 1).toNat t) : (Event.point t).Sound sets gmax 0 :=
  ⟨h.length, h.counts⟩

/-- A part of the run that ends with the table `t`, logs sound events only, and advances the
cursors at most `n` times. -/
structure Stretch (sets : List (List Int)) (gmax : Int) (n : Nat) (t : Table)
    (log : List Event) : Prop where
  recorded : Recorded (gmax + 1).toNat t
  advances_le : advances log ≤ n
  sound : ∀ e ∈ log, e.Sound sets gmax 0

theorem Stretch.nil (h : Recorded (gmax + 1).toNat t) : Stretch sets gmax n t [] :=
  ⟨h, Nat.zero_le n, by simp⟩

theorem Stretch.cons {e : Event} (h : Stretch sets gmax n t log) (he : e.Sound sets gmax 0)
    (hne : e ≠ .advance) : Stretch sets gmax n t (e :: log) := by
  refine ⟨h.recorded, ?_, List.forall_mem_cons.mpr ⟨he, h.sound⟩⟩
  rw [advances, List.count_cons_of_ne hne]
  exact h.advances_le

theorem Stretch.advance (h : Stretch sets gmax n t log) :
    Stretch sets gmax (n + 1) t (.advance :: log) := by
  refine ⟨h.recorded, ?_, List.forall_mem_cons.mpr ⟨trivial, h.sound⟩⟩
  rw [advances, List.count_cons_self]
  exact Nat.succ_le_succ h.advances_le

theorem Stretch.append {k : Nat} {log' : List Event} (h : Stretch sets gmax n t log)
    (hlog : ∀ e ∈ log', e.Sound sets gmax 0) (hk : advances log' + n ≤ k) :
    Stretch sets gmax k t (log' ++ log) := by
  refine ⟨h.recorded, ?_, List.forall_mem_append.mpr ⟨hlog, h.sound⟩⟩
  rw [advances, List.count_append]
  exact (Nat.add_le_add_left h.advances_le _).trans hk

/-- A cursor is moved step by step. -/
theorem advanceLog_post (ha : sets[p]? = some a) (hb : sets[q]? = some b) {j fuel i : Nat}
    (hi : i ≤ a.length) : (advanceLog p q a b j fuel i).Post fun i' log =>
      i + advances log = i' ∧ i' ≤ a.length ∧ ∀ e ∈ log, e.Sound sets gmax 0 := by
  induction fuel generalizing i with
  | zero => exact post_lift (by simp)
  | succ fuel ih =>
    rw [advanceLog]
    split
    case isFalse => exact post_pure ⟨rfl, hi, by simp⟩
    case isTrue hlt =>
      apply post_event_bind
      intro x hx
      apply post_event_bind
      intro y hy
      have hreadA : (Event.read p i).Sound sets gmax 0 := ⟨a, ha, lt_of_load_ok hx⟩
      have hreadB : (Event.read q j).Sound sets gmax 0 := ⟨b, hb, lt_of_load_ok hy⟩
      split
      · apply post_event_bind
        intro _ _
        apply (ih hlt).imp
        rintro i' log ⟨hadv, hlen, hlog⟩
        refine ⟨?_, hlen, ?_⟩
        · simp [advances] at hadv ⊢
          omega
        · simp only [List.forall_mem_cons]
          exact ⟨hreadA, hreadB, trivial, hlog⟩
      · exact post_pure ⟨by simp [advances], hi, by simp [hreadA, hreadB]⟩

theorem markLog_post (h : Recorded (gmax + 1).toNat t) {x : Int} (h₀ : 0 ≤ x) (hx : x ≤ gmax) :
    (markLog x t).Post (Stretch sets gmax 0) := by
  have hcell : (Event.cell x).Sound sets gmax 0 := ⟨h₀, hx⟩
  rw [markLog]
  apply post_event_bind
  intro cell hload
  split
  case isFalse => exact post_pure ((Stretch.nil h).cons hcell (by simp))
  case isTrue hfree =>
    apply post_event_bind
    intro htab hstore
    apply post_event
    intro t' ht'
    obtain rfl : ⟨htab, t.ilen + 1⟩ = t' := Except.ok.inj ht'
    have hmark : mark x t = .ok ⟨htab, t.ilen + 1⟩ := by
      rw [mark, hload, ok_bind, if_pos hfree, hstore, ok_bind]
    have hrec := mark_recorded h h₀ (by omega) hmark
    exact (((Stretch.nil hrec).cons hrec.sound (by simp)).cons hcell (by simp)).cons hcell (by simp)

/-- Both cursors are advanced. -/
theorem post_advances {rest : Traced Event Rc Table} (h : rest.Post (Stretch sets gmax n)) :
    (do
      event Event.advance (.ok ())
      event Event.advance (.ok ())
      rest : Traced Event Rc Table).Post (Stretch sets gmax (n + 1 + 1)) := by
  apply post_event_bind
  intro _ _
  apply post_event_bind
  intro _ _
  exact h.imp fun t log hs => hs.advance.advance

/-- Where the two heads agree, the table is changed, and it goes on with what is recorded
then. -/
theorem post_mark {rest : Table → Traced Event Rc Table} {x y : Int}
    (h : Recorded (gmax + 1).toNat t) (hx : 0 ≤ x ∧ x ≤ gmax)
    (hrest : ∀ t, Recorded (gmax + 1).toNat t → (rest t).Post (Stretch sets gmax n)) :
    (if x = y then do
        let t ← markLog x t
        rest t
      else do
        let t ← pure t
        rest t).Post (Stretch sets gmax n) := by
  split
  · have hmark : (markLog x t).Post (Stretch sets gmax 0) := markLog_post h hx.1 hx.2
    apply hmark.bind
    intro t' log' hs'
    apply (hrest t' hs'.recorded).imp
    intro t'' log hs
    have hadv := hs'.advances_le
    exact hs.append hs'.sound (by omega)
  · exact post_pure_bind (hrest t h)

/-- A merge advances its cursors at most to the ends of the two sets. -/
theorem mergeLoopLog_post (ha : sets[p]? = some a) (hb : sets[q]? = some b)
    (hmem : ∀ x ∈ a, 0 ≤ x ∧ x ≤ gmax) (fuel : Nat) {i j : Nat} (hi : i ≤ a.length)
    (hj : j ≤ b.length) (h : Recorded (gmax + 1).toNat t) : (mergeLoopLog p q a b fuel i j t).Post
      (Stretch sets gmax (a.length - i + (b.length - j))) := by
  induction fuel generalizing i j t with
  | zero => exact post_lift (by simp)
  | succ fuel ih =>
    have hpoint : (Event.point t).Sound sets gmax 0 := h.sound
    rw [mergeLoopLog]
    apply post_event_bind
    intro _ _
    split
    case isFalse => exact post_pure ((Stretch.nil h).cons hpoint (by simp))
    case isTrue hlt =>
      rw [if_neg (by omega)]
      apply (advanceLog_post ha hb hi).bind
      rintro i' logA ⟨hadvA, hlenA, hlogA⟩
      split
      · exact post_pure (((Stretch.nil h).append (n := 0) hlogA (by omega)).cons hpoint (by simp))
      · apply (advanceLog_post hb ha hj).bind
        rintro j' logB ⟨hadvB, hlenB, hlogB⟩
        split
        · exact post_pure ((((Stretch.nil h).append (n := 0) hlogB le_rfl).append hlogA
            (by omega)).cons hpoint (by simp))
        · apply post_event_bind
          intro x hx
          apply post_event_bind
          intro y hy
          have hltA : i' < a.length := lt_of_load_ok hx
          have hltB : j' < b.length := lt_of_load_ok hy
          -- what the turn has logged so far
          have hbefore {t' : Table} {log : List Event}
              (hs : Stretch sets gmax (a.length - i' + (b.length - j')) t' log) :
              Stretch sets gmax (a.length - i + (b.length - j)) t' (.point t ::
                (logA ++ (logB ++ .read p i' :: .read q j' :: log))) :=
            ((((hs.cons (e := .read q j') ⟨b, hb, hltB⟩ (by simp)).cons (e := .read p i')
              ⟨a, ha, hltA⟩ (by simp)).append hlogB le_rfl).append hlogA (by omega)).cons
                hpoint (by simp)
          -- and what follows, with whatever table
          have hcount : a.length - i' + (b.length - j') =
              a.length - (i' + 1) + (b.length - (j' + 1)) + 1 + 1 := by omega
          have hafter (t : Table) (h : Recorded (gmax + 1).toNat t) : (do
              event Event.advance (.ok ())
              event Event.advance (.ok ())
              mergeLoopLog p q a b fuel (i' + 1) (j' + 1) t : Traced Event Rc Table).Post
                (Stretch sets gmax (a.length - i' + (b.length - j'))) := by
            rw [hcount]
            exact post_advances (ih hltA hltB h)
          exact (post_mark h (hmem x (mem_of_load_ok hx)) hafter).imp fun t' log hs => hbefore hs

theorem mergePairLog_keeps (hmem : ∀ s ∈ sets, ∀ x ∈ s, 0 ≤ x ∧ x ≤ gmax) (seta setb : Nat)
    (h : Recorded (gmax + 1).toNat t) :
    (mergePairLog sets seta t setb).Keeps (·.Sound sets gmax 0) (Recorded (gmax + 1).toNat) := by
  rw [mergePairLog]
  split
  · exact keeps_pure h
  · apply keeps_lift_bind
    intro a ha
    apply keeps_lift_bind
    intro b hb
    have hloop := mergeLoopLog_post (load_eq_ok.mp ha) (load_eq_ok.mp hb)
      (hmem a (mem_of_load_ok ha)) (a.length + b.length + 1) (Nat.zero_le _) (Nat.zero_le _) h
    apply hloop.tally
    intro t' log hs
    have hmerged : (Event.merged seta setb (advances log)).Sound sets gmax 0 :=
      ⟨a, b, load_eq_ok.mp ha, load_eq_ok.mp hb, hs.advances_le⟩
    exact ⟨hs.recorded, List.forall_mem_append.mpr ⟨hs.sound, by simpa using hmerged⟩⟩

theorem mergeAllLog_keeps (hmem : ∀ s ∈ sets, ∀ x ∈ s, 0 ≤ x ∧ x ≤ gmax)
    (h : Recorded (gmax + 1).toNat t) :
    (mergeAllLog sets t).Keeps (·.Sound sets gmax 0) (Recorded (gmax + 1).toNat) := by
  apply keeps_foldlM _ h
  intro seta _ t ht
  apply keeps_foldlM _ ht
  intro setb _ t ht
  exact mergePairLog_keeps hmem seta setb ht

/-- The last loop writes one element for each taken cell, in order. -/
theorem fillResLog_post {htab : List Int} (hlen : htab.length = (gmax + 1).toNat)
    (k i j : Nat) (res : List Int) : (fillResLog htab k i j res).Post fun res' log =>
      res'.length = res.length ∧
      writes log = List.range' j (((htab.drop i).take k).countP (· ≠ -1)) ∧
      ∀ e ∈ log, e.Sound sets gmax res.length := by
  induction k generalizing i j res with
  | zero => exact post_pure ⟨rfl, by simp [writes], by simp⟩
  | succ k ih =>
    rw [fillResLog]
    apply post_event_bind
    intro cell hload
    have hi : i < htab.length := lt_of_load_ok hload
    have hcell : htab[i] = cell := by
      rw [load_of_lt hi] at hload
      exact Except.ok.inj hload
    have hsound : (Event.cell i).Sound sets gmax res.length := by
      constructor <;> omega
    rw [List.drop_eq_getElem_cons hi, List.take_succ_cons, hcell]
    split
    case isTrue htaken =>
      apply post_event_bind
      intro res' hstore
      obtain ⟨hj, rfl⟩ := store_eq_ok.mp hstore
      apply (ih (i + 1) (j + 1) _).imp
      rintro res'' log ⟨hres, hwrites, hlog⟩
      rw [List.length_set] at hres hlog
      refine ⟨hres, ?_, List.forall_mem_cons.mpr ⟨hsound, List.forall_mem_cons.mpr ⟨hj, hlog⟩⟩⟩
      rw [List.countP_cons_of_pos (by simpa using htaken), List.range'_succ, ← hwrites]
      rfl
    case isFalse hfree =>
      apply (ih (i + 1) j res).imp
      rintro res' log ⟨hres, hwrites, hlog⟩
      refine ⟨hres, ?_, List.forall_mem_cons.mpr ⟨hsound, hlog⟩⟩
      rw [List.countP_cons_of_neg (by simpa using hfree), ← hwrites]
      rfl

end Accounting

theorem fillRes_recorded {m : Nat} {t : Table} (h : Recorded m t) :
    ∃ res, fillRes t.htab m 0 0 (List.replicate t.ilen 0) = .ok res := by
  obtain ⟨K, hK, rfl⟩ := h
  exact ⟨_, fillRes_of m 0 0 _ (Nat.zero_add m) (by simp [Table.of, kept_length hK])⟩

theorem resultLog_spec (malloc : Site → Bool) {sets : List (List Int)} {gmax : Int} {t : Table}
    (h : Recorded (gmax + 1).toNat t) :
    (∀ e ∈ (resultLog malloc gmax t).log, e.Sound sets gmax t.ilen) ∧
      (malloc .res = false ∧ (resultLog malloc gmax t).result = .error (.code .errOor) ∨
        ∃ res, (resultLog malloc gmax t).result = .ok res ∧ res.length = t.ilen ∧
          writes (resultLog malloc gmax t).log = List.range t.ilen) := by
  rw [resultLog]
  split
  case isTrue hnone => exact ⟨by simp, .inr ⟨[], rfl, hnone.symm, by rw [hnone]; rfl⟩⟩
  case isFalse =>
    split
    case isTrue hmalloc => exact ⟨by simp, .inl ⟨hmalloc, rfl⟩⟩
    case isFalse =>
      obtain ⟨res, hres⟩ := fillRes_recorded h
      rw [← fillResLog_result] at hres
      obtain ⟨hlen, hwrites, hlog⟩ :=
        (fillResLog_post h.length _ 0 0 (List.replicate t.ilen 0)).of_ok res hres
      rw [List.length_replicate] at hlen hlog
      refine ⟨hlog, .inr ⟨res, hres, hlen, ?_⟩⟩
      rw [hwrites, List.drop_zero, List.range_eq_range', h.counts, ← h.length, List.take_length]

/-- On every family of sets that passes the sanity loop: every element and every cell that is
accessed is there, `ilen` is the number of taken cells whenever the table is looked at, a
merge advances its cursors at most as often as its sets have elements, and unless some memory
is missing the result gets its `ilen` elements, each once. -/
theorem getKSetIntersection_accounts (malloc : Site → Bool) {sets : List (List Int)} {gmax : Int}
    (h : checkSets (-1) sets = .ok gmax) :
    ∃ t, mergeAll sets ⟨List.replicate (gmax + 1).toNat (-1), 0⟩ = .ok t ∧
      (getKSetIntersectionLog malloc sets).result = getKSetIntersection malloc sets ∧
      (∀ e ∈ (getKSetIntersectionLog malloc sets).log, e.Sound sets gmax t.ilen) ∧
      ((∃ site, malloc site = false) ∧ getKSetIntersection malloc sets = .error (.code .errOor) ∨
        ∃ res, getKSetIntersection malloc sets = .ok res ∧ res.length = t.ilen ∧
          writes (getKSetIntersectionLog malloc sets).log = List.range t.ilen) := by
  have hv := of_checkSets_ok h
  have hmem : ∀ s ∈ sets, ∀ x ∈ s, 0 ≤ x ∧ x ≤ gmax := by
    obtain ⟨g, hg, -, hle⟩ := checkSets_ok (-1) hv
    obtain rfl : gmax = g := Except.ok.inj (h.symm.trans hg)
    exact fun s hs x hx => ⟨(hv s hs).2 x hx, hle s hs x hx⟩
  obtain ⟨K, hK, -⟩ := mergeAll_of (m := (gmax + 1).toNat) hv fun s hs x hx => by
    have := hmem s hs x hx
    omega
  rw [Table.of, htabOf_empty, Finset.card_empty] at hK
  have hmerge := (mergeAllLog_result _ _).trans hK
  obtain ⟨hrec, hlog⟩ := (mergeAllLog_keeps hmem (recorded_empty _)).of_ok _ hmerge
  generalize Table.of (gmax + 1).toNat K = t at hK hmerge hrec
  refine ⟨t, hK, getKSetIntersectionLog_result malloc sets, ?_⟩
  rw [← getKSetIntersectionLog_result, getKSetIntersectionLog]
  split
  case isTrue hn =>
    rw [List.length_eq_zero_iff.mp hn] at hK
    obtain rfl := Except.ok.inj hK
    exact ⟨by simp, .inr ⟨[], rfl, rfl, rfl⟩⟩
  case isFalse =>
    rw [h, lift_ok_bind]
    split
    case isTrue hmalloc => exact ⟨by simp, .inl ⟨⟨.bigHtab, hmalloc⟩, rfl⟩⟩
    case isFalse =>
      obtain ⟨hresLog, hres⟩ := @resultLog_spec malloc sets gmax t hrec
      rw [result_bind, hmerge, ok_bind, log_bind_ok hmerge]
      refine ⟨List.forall_mem_append.mpr ⟨fun e he => (hlog e he).mono t.ilen, hresLog⟩, ?_⟩
      rw [writes, List.filterMap_append, ← writes, writes_eq_nil hlog, List.nil_append]
      exact hres.imp_left (And.imp_left fun hmalloc => ⟨.res, hmalloc⟩)

/-- Three sets that share `4`, two of which share `1`. -/
def threeSets : List (List Int) := [[1, 4], [1, 4, 6], [0, 4]]

theorem threeSets_account : ∃ t res,
    mergeAll threeSets ⟨List.replicate (6 + 1 : Int).toNat (-1), 0⟩ = .ok t ∧
      (∀ e ∈ (getKSetIntersectionLog (fun _ => true) threeSets).log, e.Sound threeSets 6 t.ilen) ∧
      getKSetIntersection (fun _ => true) threeSets = .ok res ∧ res.length = t.ilen ∧
      writes (getKSetIntersectionLog (fun _ => true) threeSets).log = List.range t.ilen := by
  obtain ⟨t, ht, -, hlog, ⟨⟨_, hmalloc⟩, -⟩ | ⟨res, hres⟩⟩ :=
    @getKSetIntersection_accounts (fun _ => true) threeSets 6 (by decide)
  · simp at hmalloc
  · exact ⟨t, res, ht, hlog, hres⟩

end LibQuo.SetIntersection
