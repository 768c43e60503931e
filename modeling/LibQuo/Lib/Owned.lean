import Mathlib.Data.List.Basic
import Mathlib.Data.List.Perm.Basic

/-!
Programs that allocate and free blocks. A use or a free of a block that is not allocated is
a fault; no block is allocated twice, so that a dangling pointer is never valid again. What
a program does is stated for all blocks that are allocated, so that what it leaves behind is
stated too.
-/

namespace Owned

abbrev Ptr := Nat

/-- The blocks that have been allocated so far; one that has been freed holds nothing. -/
abbrev Heap (α : Type) := List (Option α)

/-- A use or a free of a block that is not allocated. -/
inductive Fault
  | dangling
  deriving DecidableEq, Repr

abbrev Prog (α : Type) := StateT (Heap α) (Except Fault)

variable {α β γ : Type}

def alloc (v : α) : Prog α Ptr := fun h => .ok (h.length, h ++ [some v])

def read (p : Ptr) : Prog α α := fun h =>
  match h[p]? with
  | some (some v) => .ok (v, h)
  | _ => .error .dangling

def write (p : Ptr) (v : α) : Prog α Unit := fun h =>
  match h[p]? with
  | some (some _) => .ok ((), h.set p (some v))
  | _ => .error .dangling

def free (p : Ptr) : Prog α Unit := fun h =>
  match h[p]? with
  | some (some _) => .ok ((), h.set p none)
  | _ => .error .dangling

def freeAny : Option Ptr → Prog α Unit
  | none => pure ()
  | some p => free p

def readAny : Option Ptr → Prog α α
  | none => fun _ => .error .dangling
  | some p => read p

/-- The allocated blocks are those of `m`. -/
structure Owns (h : Heap α) (m : List (Ptr × α)) : Prop where
  distinct : (m.map Prod.fst).Nodup
  blocks : ∀ p v, h[p]? = some (some v) ↔ (p, v) ∈ m

/-- From a heap with the blocks `m` a program ends, with a result and blocks as `post` says. -/
def Does (m : List (Ptr × α)) (prog : Prog α β) (post : β → List (Ptr × α) → Prop) : Prop :=
  ∀ h, Owns h m → ∃ b h' m', prog h = .ok (b, h') ∧ Owns h' m' ∧ post b m'

variable {h : Heap α} {m m' : List (Ptr × α)} {p : Ptr} {v w : α} {prog : Prog α β}
  {post mid : β → List (Ptr × α) → Prop}

theorem Owns.perm (hm : Owns h m) (hp : m.Perm m') : Owns h m' where
  distinct := (hp.map Prod.fst).nodup_iff.mp hm.distinct
  blocks p v := (hm.blocks p v).trans hp.mem_iff

/-- A block that is allocated is not beyond the heap. -/
theorem Owns.lt_length (hm : Owns h m) (hp : (p, v) ∈ m) : p < h.length :=
  (List.getElem?_eq_some_iff.mp ((hm.blocks p v).mpr hp)).1

/-- Blocks at one place are one block. -/
theorem Owns.not_mem (hm : Owns h ((p, v) :: m)) (w : α) : (p, w) ∉ m := fun hmem =>
  (List.nodup_cons.mp hm.distinct).1 (List.mem_map.mpr ⟨(p, w), hmem, rfl⟩)

namespace Does

theorem pure {b : β} (hpost : post b m) : Does m (pure b : Prog α β) post :=
  fun h hm => ⟨b, h, m, rfl, hm, hpost⟩

theorem bind {g : β → Prog α γ} {post : γ → List (Ptr × α) → Prop} (hprog : Does m prog mid)
    (hg : ∀ b m', mid b m' → Does m' (g b) post) : Does m (prog >>= g) post := by
  intro h hm
  obtain ⟨b, h', m', hrun, hm', hmid⟩ := hprog h hm
  obtain ⟨c, h'', m'', hrun', hm'', hpost⟩ := hg b m' hmid h' hm'
  refine ⟨c, h'', m'', ?_, hm'', hpost⟩
  change (prog h >>= fun r => g r.1 r.2) = _
  rw [hrun]
  exact hrun'

theorem mono {post' : β → List (Ptr × α) → Prop} (hprog : Does m prog post)
    (hpost : ∀ b m', post b m' → post' b m') : Does m prog post' := by
  intro h hm
  obtain ⟨b, h', m', hrun, hm', hb⟩ := hprog h hm
  exact ⟨b, h', m', hrun, hm', hpost b m' hb⟩

/-- The order in which blocks are listed does not matter. -/
theorem perm (hp : m.Perm m') (hprog : Does m' prog post) : Does m prog post :=
  fun h hm => hprog h (hm.perm hp)

theorem alloc (m : List (Ptr × α)) (v : α) :
    Does m (Owned.alloc v) fun p m' => m' = (p, v) :: m := by
  intro h hm
  have hnew (w : α) : (h.length, w) ∉ m := fun hmem => Nat.lt_irrefl _ (hm.lt_length hmem)
  refine ⟨h.length, h ++ [some v], (h.length, v) :: m, rfl, ⟨?_, fun p w => ?_⟩, rfl⟩
  · refine List.nodup_cons.mpr ⟨fun hmem => ?_, hm.distinct⟩
    obtain ⟨⟨p, w⟩, hmem, rfl⟩ := List.mem_map.mp hmem
    exact hnew w hmem
  · rw [List.mem_cons, Prod.mk.injEq]
    rcases Nat.lt_trichotomy p h.length with hlt | rfl | hgt
    · rw [List.getElem?_append_left hlt, hm.blocks, or_iff_right fun heq => Nat.ne_of_lt hlt heq.1]
    · rw [List.getElem?_append_right (Nat.le_refl _), Nat.sub_self, or_iff_left (hnew w)]
      simp [eq_comm]
    · rw [List.getElem?_eq_none (by rw [List.length_append, List.length_singleton]; exact hgt)]
      refine ⟨fun heq => absurd heq (by simp), fun hor => ?_⟩
      rcases hor with heq | hmem
      · exact absurd heq.1 (Nat.ne_of_gt hgt)
      · exact absurd (hm.lt_length hmem) (Nat.not_lt.mpr (Nat.le_of_lt hgt))

theorem read (hmem : (p, v) ∈ m) : Does m (Owned.read p) fun u m' => u = v ∧ m' = m := by
  intro h hm
  refine ⟨v, h, m, ?_, hm, rfl, rfl⟩
  rw [Owned.read, (hm.blocks p v).mpr hmem]

theorem write (m : List (Ptr × α)) (p : Ptr) (v w : α) :
    Does ((p, v) :: m) (Owned.write p w) fun _ m' => m' = (p, w) :: m := by
  intro h hm
  have hblock := (hm.blocks p v).mpr List.mem_cons_self
  have hlt := hm.lt_length List.mem_cons_self
  refine ⟨(), h.set p (some w), (p, w) :: m, by rw [Owned.write, hblock],
    ⟨hm.distinct, fun q u => ?_⟩, rfl⟩
  rw [List.mem_cons, Prod.mk.injEq]
  by_cases hq : p = q
  · subst hq
    rw [List.getElem?_set_self hlt, or_iff_left (hm.not_mem u)]
    simp [eq_comm]
  · have hother := hm.blocks q u
    rw [List.mem_cons, Prod.mk.injEq, or_iff_right fun heq => hq heq.1.symm] at hother
    rw [List.getElem?_set_ne hq, hother, or_iff_right fun heq => hq heq.1.symm]

theorem free (m : List (Ptr × α)) (p : Ptr) (v : α) :
    Does ((p, v) :: m) (Owned.free p) fun _ m' => m' = m := by
  intro h hm
  have hblock := (hm.blocks p v).mpr List.mem_cons_self
  have hlt := hm.lt_length List.mem_cons_self
  refine ⟨(), h.set p none, m, by rw [Owned.free, hblock],
    ⟨(List.nodup_cons.mp hm.distinct).2, fun q u => ?_⟩, rfl⟩
  by_cases hq : p = q
  · subst hq
    rw [List.getElem?_set_self hlt]
    exact ⟨fun heq => absurd heq (by simp), fun hmem => absurd hmem (hm.not_mem u)⟩
  · have hother := hm.blocks q u
    rw [List.mem_cons, Prod.mk.injEq, or_iff_right fun heq => hq heq.1.symm] at hother
    rw [List.getElem?_set_ne hq, hother]

/-! What follows an operation. -/

variable {δ : Type} {post' : δ → List (Ptr × α) → Prop}

theorem alloc_bind {g : Ptr → Prog α δ} (hg : ∀ p, Does ((p, v) :: m) (g p) post') :
    Does m (Owned.alloc v >>= g) post' :=
  (alloc m v).bind fun p _ hm => hm ▸ hg p

theorem read_bind {g : α → Prog α δ} (hmem : (p, v) ∈ m) (hg : Does m (g v) post') :
    Does m (Owned.read p >>= g) post' :=
  (read hmem).bind fun _ _ h => h.1 ▸ h.2 ▸ hg

theorem write_bind {g : Unit → Prog α δ} (hg : Does ((p, w) :: m) (g ()) post') :
    Does ((p, v) :: m) (Owned.write p w >>= g) post' :=
  (write m p v w).bind fun _ _ hm => hm ▸ hg

theorem free_bind {g : Unit → Prog α δ} (hg : Does m (g ()) post') :
    Does ((p, v) :: m) (Owned.free p >>= g) post' :=
  (free m p v).bind fun _ _ hm => hm ▸ hg

theorem readAny_bind {g : α → Prog α δ} (hmem : (p, v) ∈ m) (hg : Does m (g v) post') :
    Does m (Owned.readAny (some p) >>= g) post' :=
  read_bind hmem hg

theorem freeAny_bind {g : Unit → Prog α δ} (hg : Does m (g ()) post') :
    Does ((p, v) :: m) (Owned.freeAny (some p) >>= g) post' :=
  free_bind hg

theorem pure_bind {b : β} {g : β → Prog α δ} (hg : Does m (g b) post') :
    Does m (Pure.pure b >>= g) post' := hg

end Does

end Owned
