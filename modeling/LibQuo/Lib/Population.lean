import Mathlib.Data.List.Nodup

/-!
A population of tasks, each with an identifier and a value that it has from the task that
has created it. Tasks come and go between the accesses of one of them, which stays. No
identifier is given twice.
-/

namespace Population

variable {α : Type}

structure Task (α : Type) where
  tid : Nat
  value : α
  deriving DecidableEq

/-- What the other tasks do. -/
inductive Event
  | spawn (parent tid : Nat)
  | exit (tid : Nat)
  deriving DecidableEq, Repr

/-- The tasks in the order of their creation, all identifiers that were ever given, and the
task that looks at the others. -/
structure Pop (α : Type) where
  tasks : List (Task α)
  used : List Nat
  self : Nat
  nodup : (tasks.map Task.tid).Nodup
  used_of_mem : ∀ t ∈ tasks, t.tid ∈ used
  self_mem : self ∈ tasks.map Task.tid

namespace Pop

def single (tid : Nat) (v : α) : Pop α :=
  ⟨[⟨tid, v⟩], [tid], tid, by simp, by simp, by simp⟩

def tids (p : Pop α) : List Nat := p.tasks.map Task.tid

def read (p : Pop α) (tid : Nat) : Option α := (p.tasks.find? fun t => t.tid = tid).map Task.value

def write (p : Pop α) (tid : Nat) (v : α) : Pop α where
  tasks := p.tasks.map fun t => if t.tid = tid then ⟨tid, v⟩ else t
  used := p.used
  self := p.self
  nodup := by
    have hsame : (Task.tid ∘ fun t : Task α => if t.tid = tid then ⟨tid, v⟩ else t) = Task.tid := by
      funext t
      by_cases ht : t.tid = tid <;> simp [ht]
    rw [List.map_map, hsame]
    exact p.nodup
  used_of_mem := by
    intro t ht
    obtain ⟨u, hu, rfl⟩ := List.mem_map.mp ht
    have hused := p.used_of_mem u hu
    by_cases htid : u.tid = tid
    · simpa [htid] using hused
    · simpa [htid] using hused
  self_mem := by
    obtain ⟨t, ht, hself⟩ := List.mem_map.mp p.self_mem
    refine List.mem_map.mpr ⟨_, List.mem_map_of_mem ht, ?_⟩
    by_cases htid : t.tid = tid <;> simp [htid, ← hself]

def add (p : Pop α) (tid : Nat) (v : α) (hnew : tid ∉ p.used) : Pop α where
  tasks := p.tasks ++ [⟨tid, v⟩]
  used := tid :: p.used
  self := p.self
  nodup := by
    rw [List.map_append, List.nodup_append]
    refine ⟨p.nodup, by simp, ?_⟩
    rintro a ha b hb rfl
    obtain ⟨t, ht, rfl⟩ := List.mem_map.mp ha
    have htid : t.tid = tid := by simpa using hb
    exact hnew (htid ▸ p.used_of_mem t ht)
  used_of_mem := by
    intro t ht
    rcases List.mem_append.mp ht with ht | ht
    · exact List.mem_cons_of_mem _ (p.used_of_mem t ht)
    · rw [List.mem_singleton.mp ht]
      exact List.mem_cons_self
  self_mem := by
    rw [List.map_append]
    exact List.mem_append_left _ p.self_mem

/-- A task other than the one that looks is gone. -/
def remove (p : Pop α) (tid : Nat) (hself : tid ≠ p.self) : Pop α where
  tasks := p.tasks.filter fun t => t.tid ≠ tid
  used := p.used
  self := p.self
  nodup := p.nodup.sublist (List.filter_sublist.map _)
  used_of_mem t ht := p.used_of_mem t (List.mem_filter.mp ht).1
  self_mem := by
    obtain ⟨t, ht, htid⟩ := List.mem_map.mp p.self_mem
    refine List.mem_map.mpr ⟨t, List.mem_filter.mpr ⟨ht, ?_⟩, htid⟩
    rw [htid]
    exact decide_eq_true (Ne.symm hself)

/-- What is impossible does not happen, and an identifier that was given once is not given
again: a system that reuses the identifiers of tasks that are gone has runs that are none
of these. -/
def play (p : Pop α) : Event → Pop α
  | .spawn parent tid =>
    match p.read parent with
    | none => p
    | some v => if h : tid ∈ p.used then p else p.add tid v h
  | .exit tid => if h : tid = p.self then p else p.remove tid h

/-- Of every task whose identifier is in `ids`, `Q` holds; and all of `ids` are known. -/
structure Seen (p : Pop α) (ids : List Nat) (Q : Nat → α → Prop) : Prop where
  used : ∀ i ∈ ids, i ∈ p.used
  holds : ∀ t ∈ p.tasks, t.tid ∈ ids → Q t.tid t.value

def All (p : Pop α) (P : α → Prop) : Prop := ∀ t ∈ p.tasks, P t.value

variable {p : Pop α} {ids : List Nat} {Q : Nat → α → Prop} {P : α → Prop} {tid : Nat} {v : α}

theorem read_eq_some : p.read tid = some v ↔ ⟨tid, v⟩ ∈ p.tasks := by
  constructor
  · intro h
    obtain ⟨t, ht, rfl⟩ := Option.map_eq_some_iff.mp h
    obtain rfl : t.tid = tid := by simpa using List.find?_some ht
    exact List.mem_of_find?_eq_some ht
  · intro h
    cases hfind : p.tasks.find? fun t => t.tid = tid with
    | none =>
      have hnot := List.find?_eq_none.mp hfind _ h
      simp at hnot
    | some t =>
      have htid : t.tid = tid := by simpa using List.find?_some hfind
      have hsame : t = ⟨tid, v⟩ :=
        List.inj_on_of_nodup_map p.nodup (List.mem_of_find?_eq_some hfind) h htid
      rw [read, hfind, hsame]
      rfl

theorem tids_ne_nil (p : Pop α) : p.tids ≠ [] := List.ne_nil_of_mem p.self_mem

theorem exists_task (p : Pop α) : ∃ t, t ∈ p.tasks := by
  obtain ⟨t, ht, -⟩ := List.mem_map.mp p.self_mem
  exact ⟨t, ht⟩

/-- A new task has the value of its parent, so that whatever all tasks have it has. -/
theorem All.play (h : p.All P) (e : Event) : (p.play e).All P := by
  cases e with
  | spawn parent tid =>
    cases hread : p.read parent with
    | none => simpa only [Pop.play, hread] using h
    | some v =>
      simp only [Pop.play, hread]
      split
      case isTrue => exact h
      case isFalse =>
        intro t ht
        rcases List.mem_append.mp ht with ht | ht
        · exact h t ht
        · rw [List.mem_singleton.mp ht]
          exact h ⟨parent, v⟩ (read_eq_some.mp hread)
  | exit tid =>
    simp only [Pop.play]
    split
    case isTrue => exact h
    case isFalse => exact fun t ht => h t (List.mem_filter.mp ht).1

/-- A new task is none of those that were seen. -/
theorem Seen.play (h : p.Seen ids Q) (e : Event) : (p.play e).Seen ids Q := by
  cases e with
  | spawn parent tid =>
    cases hread : p.read parent with
    | none => simpa only [Pop.play, hread] using h
    | some v =>
      simp only [Pop.play, hread]
      split
      case isTrue => exact h
      case isFalse hnew =>
        refine ⟨fun i hi => List.mem_cons_of_mem _ (h.used i hi), fun t ht hid => ?_⟩
        rcases List.mem_append.mp ht with ht | ht
        · exact h.holds t ht hid
        · rw [List.mem_singleton.mp ht] at hid
          exact absurd (h.used _ hid) hnew
  | exit tid =>
    simp only [Pop.play]
    split
    case isTrue => exact h
    case isFalse => exact ⟨h.used, fun t ht => h.holds t (List.mem_filter.mp ht).1⟩

theorem All.write (h : p.All P) (hv : P v) : (p.write tid v).All P := by
  intro t ht
  obtain ⟨u, hu, rfl⟩ := List.mem_map.mp ht
  split
  · exact hv
  · exact h u hu

/-- A task that is written is seen. -/
theorem Seen.write (h : p.Seen ids Q) (hused : tid ∈ p.used) (hv : Q tid v) :
    (p.write tid v).Seen (tid :: ids) Q := by
  refine ⟨List.forall_mem_cons.mpr ⟨hused, h.used⟩, fun t ht hid => ?_⟩
  obtain ⟨u, hu, rfl⟩ := List.mem_map.mp ht
  by_cases htid : u.tid = tid
  · simpa only [if_pos htid] using hv
  · simp only [if_neg htid] at hid ⊢
    exact h.holds u hu ((List.mem_cons.mp hid).resolve_left htid)

/-- So is a task that is read. -/
theorem Seen.read (h : p.Seen ids Q) (hread : p.read tid = some v) (hv : Q tid v) :
    p.Seen (tid :: ids) Q := by
  have hmem := read_eq_some.mp hread
  refine ⟨List.forall_mem_cons.mpr ⟨p.used_of_mem _ hmem, h.used⟩, fun t ht hid => ?_⟩
  rcases List.mem_cons.mp hid with htid | hid
  · have hsame : t = ⟨tid, v⟩ := List.inj_on_of_nodup_map p.nodup ht hmem htid
    rw [hsame]
    exact hv
  · exact h.holds t ht hid

/-- Whoever has seen all tasks that are there knows all their values. -/
theorem Seen.all (h : p.Seen p.tids Q) : ∀ t ∈ p.tasks, Q t.tid t.value :=
  fun t ht => h.holds t ht (List.mem_map_of_mem ht)

theorem Seen.mono {Q' : Nat → α → Prop} (h : p.Seen ids Q) (hQ : ∀ i ∈ ids, ∀ v, Q i v → Q' i v) :
    p.Seen ids Q' :=
  ⟨h.used, fun t ht hid => hQ _ hid _ (h.holds t ht hid)⟩

theorem Seen.of_subset {ids' : List Nat} (h : p.Seen ids Q) (hsub : ids' ⊆ ids) : p.Seen ids' Q :=
  ⟨fun i hi => h.used i (hsub hi), fun t ht hid => h.holds t ht (hsub hid)⟩

theorem seen_nil (p : Pop α) (Q : Nat → α → Prop) : p.Seen [] Q :=
  ⟨fun _ hi => absurd hi List.not_mem_nil, fun _ _ hid => absurd hid List.not_mem_nil⟩

end Pop

/-- What happens before an access, and whether the access fails. -/
structure Turn where
  events : List Event
  fails : Bool

/-- The turns of all accesses. -/
abbrev World : Type := Nat → Turn

/-- A population, and how many accesses there have been. -/
structure Sys (α : Type) where
  pop : Pop α
  clock : Nat

namespace Sys

/-- The turn of the next access. -/
def turn (world : World) (s : Sys α) : Bool × Sys α :=
  ((world s.clock).fails, ⟨(world s.clock).events.foldl Pop.play s.pop, s.clock + 1⟩)

def write (s : Sys α) (tid : Nat) (v : α) : Sys α := { s with pop := s.pop.write tid v }

variable {world : World} {s : Sys α} {ids : List Nat} {Q : Nat → α → Prop} {P : α → Prop}

/-- What no event destroys is there after the turn. -/
theorem turn_keeps {I : Pop α → Prop} (hI : ∀ p e, I p → I (p.play e)) (h : I s.pop) :
    I (s.turn world).2.pop := by
  show I ((world s.clock).events.foldl Pop.play s.pop)
  generalize (world s.clock).events = events
  generalize s.pop = p at h
  induction events generalizing p with
  | nil => exact h
  | cons e events ih => exact ih _ (hI _ _ h)

theorem turn_seen (world : World) (h : s.pop.Seen ids Q) : (s.turn world).2.pop.Seen ids Q :=
  turn_keeps (I := fun p => p.Seen ids Q) (fun _ e hp => hp.play e) h

theorem turn_all (world : World) (h : s.pop.All P) : (s.turn world).2.pop.All P :=
  turn_keeps (I := fun p => p.All P) (fun _ e hp => hp.play e) h

end Sys

end Population
