import LibQuo.UniqPath

/-!
The paths of the segments on the file system of a node. One process makes every segment of
a call and takes its path away again: a path is there exactly as long as that process is
between the two.
-/

namespace LibQuo.Sm
open CMem Spmd

variable {keeps : Path → Bool} {segPath : Option Path} {segSize : Nat} {a : Act}
  {h h' : Handle} {fs fs' : Files}

/-- Only `open` with `O_CREAT` and `unlink` change what is linked. -/
theorem exec_dir (hcreate : a ≠ .openCreate) (hunlink : a ≠ .unlink) :
    (exec keeps segPath segSize a h fs).2.dir = fs.dir := by
  cases a with
  | openCreate => exact absurd rfl hcreate
  | unlink => exact absurd rfl hunlink
  | cachePath | ftruncate | mmap =>
    simp only [exec]
    split <;> rfl
  | openRdwr =>
    simp only [exec]
    split
    · rfl
    · split <;> rfl

/-- The path of a handle is the one it had, or the one it was given. -/
theorem exec_path (hx : exec keeps segPath segSize a h fs = (.ok h', fs')) :
    h'.path = h.path ∨ h'.path = segPath := by
  cases a <;> simp only [exec] at hx <;> split at hx <;> try split at hx
  all_goals simp at hx
  all_goals obtain ⟨rfl, -⟩ := hx
  all_goals simp

theorem of_exec_openCreate (hx : exec keeps segPath segSize .openCreate h fs = (.ok h', fs')) :
    ∃ path, h.path = some path ∧ fs' = (fs.create path).2 := by
  simp only [exec] at hx
  split at hx
  · simp at hx
  · exact ⟨_, ‹_›, (Prod.mk.inj hx).2.symm⟩

theorem of_exec_unlink (hx : exec keeps segPath segSize .unlink h fs = (.ok h', fs')) :
    ∃ path, h.path = some path ∧ fs' = if keeps path then fs else fs.unlink path := by
  simp only [exec] at hx
  split at hx
  · simp at hx
  · exact ⟨_, ‹_›, (Prod.mk.inj hx).2.symm⟩

theorem Files.dir_empty : Files.empty.dir = fun _ => none := rfl

theorem Files.isSome_create (fs : Files) (path path' : Path) :
    ((fs.create path).2.dir path').isSome ↔ path' = path ∨ (fs.dir path').isSome := by
  cases hdir : fs.dir path with
  | none => by_cases heq : path' = path <;> simp [Files.create, hdir, heq]
  | some i =>
    simp only [Files.create, hdir, iff_or_self]
    rintro rfl
    simp [hdir]

theorem Files.isSome_unlink (fs : Files) (path path' : Path) :
    ((fs.unlink path).dir path').isSome ↔ path' ≠ path ∧ (fs.dir path').isSome := by
  by_cases heq : path' = path <;> simp [Files.unlink, heq]

/-- An exchange and a handle that know no other path than the one that was made up. -/
structure Named (name : Except Failure Path) (x : UniqPath.Local) (h : Handle) : Prop where
  result : ∀ path, x.result = some path → name = .ok path
  path : ∀ path, h.path = some path → name = .ok path

variable {name : Except Failure Path} {x x' : UniqPath.Local}

theorem Named.fresh (name : Except Failure Path) : Named name .fresh .fresh :=
  ⟨by simp [UniqPath.Local.fresh], by simp [Handle.fresh]⟩

theorem Named.exec (hn : Named name x h) (hx : exec keeps x.result segSize a h fs = (.ok h', fs')) :
    Named name x h' := by
  refine ⟨hn.result, fun path hpath => ?_⟩
  rcases exec_path hx with heq | heq
  · exact hn.path path (heq ▸ hpath)
  · exact hn.result path (heq ▸ hpath)

theorem Named.execRoot {b : UniqPath.Act} (hn : Named name x h)
    (hx : UniqPath.execRoot name b x = .ok x') : Named name x' h := by
  refine ⟨fun path hpath => ?_, hn.path⟩
  cases b with
  | getSegmentName =>
    cases name with
    | error e =>
      obtain rfl := Except.ok.inj hx
      exact hn.result path hpath
    | ok path₀ =>
      obtain rfl := Except.ok.inj hx
      exact congrArg Except.ok (Option.some.inj hpath)
  | checkPlen =>
    simp only [UniqPath.execRoot] at hx
    split at hx
    · simp at hx
    · exact hn.result path (Except.ok.inj hx ▸ hpath)
  | callocResult => exact hn.result path (Except.ok.inj hx ▸ hpath)

/-! ## The process that makes the segments -/

variable {n : Nat} {ι Act' Coll Chan Loc World Val : Type}
variable {P : Protocol n Act' Coll Chan Loc World Val (Halt Int)}

/-- The segments `ι` of a protocol: `maker` alone makes each one and takes its path away, one
segment after the other. -/
structure Custody (P : Protocol n Act' Coll Chan Loc World Val (Halt Int)) (ι : Type) where
  maker : Fin n
  files : World → Files
  name : ι → Except Failure Path
  keeps : Path → Bool
  step : ι → Act → Act'
  Own : Loc → Prop
  step_inj : ∀ {m m' a a'}, step m a = step m' a' → m = m' ∧ a = a'
  start : (files P.world₀).dir = fun _ => none
  own_start : Own (P.loc₀ maker)
  own_exec : ∀ {a loc w loc' w'}, Own loc → P.exec maker a loc w = (.ok loc', w') → Own loc'
  own_recv : ∀ {c f loc}, Own loc → Own (P.recv maker c f loc)
  idle : ∀ {p w w'}, P.idle p w w' → (files w').dir = (files w).dir
  error : ∀ {p a loc w e w'}, P.exec p a loc w = (.error e, w') → (files w').dir = (files w).dir
  create : ∀ {m loc w loc' w'}, Own loc → P.exec maker (step m .openCreate) loc w = (.ok loc', w') →
    ∃ path, name m = .ok path ∧ (files w').dir = ((files w).create path).2.dir
  unlink : ∀ {m loc w loc' w'}, Own loc → P.exec maker (step m .unlink) loc w = (.ok loc', w') →
    ∃ path, name m = .ok path ∧
      (files w').dir = (if keeps path then files w else (files w).unlink path).dir
  other : ∀ {p a loc w loc' w'}, (∀ m, a ≠ step m .openCreate ∧ a ≠ step m .unlink) →
    P.exec p a loc w = (.ok loc', w') → (files w').dir = (files w).dir
  peer : ∀ {p a}, p ≠ maker → .act a ∈ P.script p →
    ∀ m, a ≠ step m .openCreate ∧ a ≠ step m .unlink
  opens : ∀ m, .act (step m .openCreate) ∈ P.script maker
  opened : ∀ {m rest}, .act (step m .openCreate) :: rest <:+ P.script maker →
    .act (step m .openCreate) ∉ rest ∧ .act (step m .unlink) ∈ rest
  unlinked : ∀ {m rest}, .act (step m .unlink) :: rest <:+ P.script maker →
    .act (step m .unlink) ∉ rest ∧
      ∀ m', .act (step m' .unlink) ∈ rest → .act (step m' .openCreate) ∈ rest

namespace Custody

variable (C : Custody P ι)

/-- The maker has opened the segment at `path`, and either has not yet called `unlink` or
has called it in vain. -/
def Held (todo : List (Instr Act' Coll)) (m : ι) (path : Path) : Prop :=
  .act (C.step m .openCreate) ∉ todo ∧ (.act (C.step m .unlink) ∈ todo ∨ C.keeps path = true)

/-- The paths that are linked are those of the segments that are held. -/
def Kept (dir : Path → Option Nat) (todo : List (Instr Act' Coll)) : Prop :=
  ∀ path, (dir path).isSome ↔ ∃ m, C.name m = .ok path ∧ C.Held todo m path

variable {C} {rest : List (Instr Act' Coll)} {b : Act'} {c : Coll} {m m' : ι} {path : Path}

theorem held_coll : C.Held (.coll c :: rest) m path ↔ C.Held rest m path := by simp [Held]

theorem held_other (hb : b ≠ C.step m .openCreate ∧ b ≠ C.step m .unlink) :
    C.Held (.act b :: rest) m path ↔ C.Held rest m path := by
  simp [Held, hb.1.symm, hb.2.symm]

/-- Opening one segment changes nothing for another. -/
theorem held_openCreate (hne : m' ≠ m) :
    C.Held (.act (C.step m .openCreate) :: rest) m' path ↔ C.Held rest m' path :=
  held_other ⟨fun h => hne (C.step_inj h).1.symm, fun h => absurd (C.step_inj h).2 (by decide)⟩

/-- The segment that is opened is held from then on. -/
theorem kept_openCreate (hsuf : .act (C.step m .openCreate) :: rest <:+ P.script C.maker)
    (hname : C.name m = .ok path) (hk : C.Kept fs.dir (.act (C.step m .openCreate) :: rest)) :
    C.Kept (fs.create path).2.dir rest := by
  intro path'
  rw [Files.isSome_create, hk path']
  constructor
  · rintro (rfl | ⟨m', hm', hheld⟩)
    · exact ⟨m, hname, (C.opened hsuf).1, .inl (C.opened hsuf).2⟩
    · have hne : m' ≠ m := by
        rintro rfl
        exact hheld.1 List.mem_cons_self
      exact ⟨m', hm', (held_openCreate hne).mp hheld⟩
  · rintro ⟨m', hm', hheld⟩
    by_cases hpath : path' = path
    · exact .inl hpath
    · have hne : m' ≠ m := by
        rintro rfl
        exact hpath (Except.ok.inj (hm'.symm.trans hname))
      exact .inr ⟨m', hm', (held_openCreate hne).mpr hheld⟩

/-- Behind the `unlink` of a segment, what is held is held because it was so before and its
path stays. -/
theorem held_unlinked (hsuf : .act (C.step m .unlink) :: rest <:+ P.script C.maker)
    (hname : C.name m = .ok path) {path' : Path} (hm' : C.name m' = .ok path') :
    C.Held rest m' path' ↔ (path' ≠ path ∨ C.keeps path = true) ∧
      C.Held (.act (C.step m .unlink) :: rest) m' path' := by
  have hgone : .act (C.step m' .unlink) ∈ rest → .act (C.step m' .openCreate) ∈ rest :=
    (C.unlinked hsuf).2 m'
  have hopen : Instr.act (C.step m' .openCreate) ∈ .act (C.step m .unlink) :: rest ↔
      (.act (C.step m' .openCreate) : Instr Act' Coll) ∈ rest := by
    rw [List.mem_cons, or_iff_right]
    exact fun h => absurd (C.step_inj (Instr.act.inj h)).2 (by decide)
  constructor
  · rintro ⟨hnot, hunlink | hkeeps⟩
    · exact absurd (hgone hunlink) hnot
    · refine ⟨?_, by rwa [hopen], .inr hkeeps⟩
      by_cases hpath : path' = path
      · exact .inr (hpath ▸ hkeeps)
      · exact .inl hpath
  · rintro ⟨hstays, hnot, hunlink | hkeeps⟩
    · rw [hopen] at hnot
      rcases List.mem_cons.mp hunlink with heq | hmem
      · obtain ⟨rfl, -⟩ := C.step_inj (Instr.act.inj heq)
        obtain rfl := Except.ok.inj (hm'.symm.trans hname)
        exact ⟨hnot, .inr (hstays.resolve_left (by simp))⟩
      · exact absurd (hgone hmem) hnot
    · exact ⟨by rwa [hopen] at hnot, .inr hkeeps⟩

/-- When a path is taken away, nothing else goes with it. -/
theorem kept_unlink (hsuf : .act (C.step m .unlink) :: rest <:+ P.script C.maker)
    (hname : C.name m = .ok path) (hk : C.Kept fs.dir (.act (C.step m .unlink) :: rest)) :
    C.Kept (if C.keeps path then fs else fs.unlink path).dir rest := by
  intro path'
  have hlinked : ((if C.keeps path then fs else fs.unlink path).dir path').isSome ↔
      (path' ≠ path ∨ C.keeps path = true) ∧ (fs.dir path').isSome := by
    by_cases hkeeps : C.keeps path = true
    · simp [hkeeps]
    · simp [hkeeps, Files.isSome_unlink]
  rw [hlinked, hk path', ← exists_and_left]
  refine exists_congr fun m' => ?_
  rw [and_left_comm]
  exact and_congr_right fun hm' => (held_unlinked hsuf hname hm').symm

/-- What an action of the maker does to the files, it does to the segments that are held. -/
theorem kept_act {loc loc' : Loc} {w w' : World} (hsuf : .act b :: rest <:+ P.script C.maker)
    (hown : C.Own loc) (hk : C.Kept (C.files w).dir (.act b :: rest))
    (hx : P.exec C.maker b loc w = (.ok loc', w')) : C.Kept (C.files w').dir rest := by
  by_cases hcreate : ∃ m, b = C.step m .openCreate
  · obtain ⟨m, rfl⟩ := hcreate
    obtain ⟨path, hname, hdir⟩ := C.create hown hx
    rw [hdir]
    exact kept_openCreate hsuf hname hk
  by_cases hunlink : ∃ m, b = C.step m .unlink
  · obtain ⟨m, rfl⟩ := hunlink
    obtain ⟨path, hname, hdir⟩ := C.unlink hown hx
    rw [hdir]
    exact kept_unlink hsuf hname hk
  have hother : ∀ m, b ≠ C.step m .openCreate ∧ b ≠ C.step m .unlink := fun m =>
    ⟨fun h => hcreate ⟨m, h⟩, fun h => hunlink ⟨m, h⟩⟩
  rw [C.other hother hx]
  intro path
  rw [hk path]
  exact exists_congr fun m => and_congr_right fun _ => held_other (hother m)

variable (C) in
/-- What holds of a state: the variables of the maker name no other paths, and what is linked
is what it holds. -/
structure Inv (s : Group n Act' Coll Loc World Val (Halt Int)) : Prop where
  todo : ∀ p, (s.proc p).todo <:+ P.script p
  own : C.Own (s.proc C.maker).loc
  kept : C.Kept (C.files s.world).dir (s.proc C.maker).todo

theorem inv_initial : C.Inv (initial P) where
  todo _ := List.suffix_rfl
  own := C.own_start
  kept path := by
    simp only [initial, C.start, Option.isSome_none, Bool.false_eq_true, false_iff]
    rintro ⟨m, -, hheld⟩
    exact hheld.1 (C.opens m)

variable {s t : Group n Act' Coll Loc World Val (Halt Int)} {p : Fin n} {w : World}

/-- One process goes on, and only if it is the maker, something happens to the links. -/
theorem inv_update (hI : C.Inv s) {pr : Proc Act' Coll Loc (Halt Int)}
    {posted : Fin n → List (Coll × Val)} (htodo : pr.todo <:+ P.script p)
    (hmaker : C.maker = p → C.Own pr.loc ∧ C.Kept (C.files w).dir pr.todo)
    (hpeer : C.maker ≠ p → (C.files w).dir = (C.files s.world).dir) :
    C.Inv ⟨Function.update s.proc p pr, posted, w⟩ := by
  by_cases hp : C.maker = p
  · obtain ⟨hown, hkept⟩ := hmaker hp
    subst hp
    refine ⟨fun q => ?_, by simpa using hown, by simpa using hkept⟩
    by_cases hq : q = C.maker
    · subst hq
      simpa using htodo
    · simpa [hq] using hI.todo q
  · refine ⟨fun q => ?_, by simpa [hp] using hI.own, ?_⟩
    · by_cases hq : q = p
      · subst hq
        simpa using htodo
      · simpa [hq] using hI.todo q
    · simpa [hp, hpeer hp] using hI.kept

variable [DecidableEq Chan]

theorem inv_step (hI : C.Inv s) (hs : Step P s t) : C.Inv t := by
  have hown := hI.own
  have hkept := hI.kept
  cases hs with
  | @act p b rest loc loc' w hp hx =>
    have hsuf : .act b :: rest <:+ P.script p := by simpa [hp] using hI.todo p
    refine inv_update hI ((List.suffix_cons _ _).trans hsuf) (fun hq => ?_) fun hq => ?_
    · subst hq
      rw [hp] at hown hkept
      exact ⟨C.own_exec hown hx, kept_act hsuf hown hkept hx⟩
    · exact C.other (C.peer (Ne.symm hq) (hsuf.subset List.mem_cons_self)) hx
  | @fail p b rest loc e w hp hx =>
    have hsuf : .act b :: rest <:+ P.script p := by simpa [hp] using hI.todo p
    refine inv_update hI hsuf (fun hq => ?_) fun _ => C.error hx
    subst hq
    rw [hp] at hown hkept
    exact ⟨hown, by rw [C.error hx]; exact hkept⟩
  | @enter p c rest loc hp =>
    have hsuf : .coll c :: rest <:+ P.script p := by simpa [hp] using hI.todo p
    refine inv_update hI hsuf (fun hq => ?_) fun _ => rfl
    subst hq
    rw [hp] at hown hkept
    exact ⟨hown, hkept⟩
  | @leave p c rest loc hp _ =>
    have hsuf : .coll c :: rest <:+ P.script p := by simpa [hp] using hI.todo p
    refine inv_update hI ((List.suffix_cons _ _).trans hsuf) (fun hq => ?_) fun _ => rfl
    subst hq
    rw [hp] at hown hkept
    refine ⟨C.own_recv hown, fun path => ?_⟩
    rw [hkept path]
    exact exists_congr fun m => and_congr_right fun _ => held_coll
  | idle _ hidle => exact ⟨hI.todo, hown, by rw [C.idle hidle]; exact hkept⟩

/-- In every state that a run reaches, the paths that are linked are those of the segments
that the maker holds. -/
theorem kept_of_reachable (hr : Reachable P s) :
    C.Kept (C.files s.world).dir (s.proc C.maker).todo :=
  (hr.invariant inv_initial fun _ _ _ hI hs => inv_step hI hs).kept

end Custody

end LibQuo.Sm
