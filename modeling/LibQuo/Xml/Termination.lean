import Mathlib.Data.List.TakeWhile
import LibQuo.Xml.Import

/-!
The import of any text, which need not be one that was exported, comes to its end: every
call leaves less of the text than it was given, or as much and nothing more to do.
-/

namespace LibQuo.Xml
open CText

/-- The import has stopped by itself, and not for a bound on its turns. -/
def Stop.Final (e : Stop) : Prop := e = .refused ∨ e = .fault .outOfBounds

instance (e : Stop) : Decidable e.Final := inferInstanceAs (Decidable (_ ∨ _))

/-- The parse comes to its end, and what it returns meets `Q`. -/
structure Settles {α : Type} (r : Parse α) (Q : α → Prop) : Prop where
  stop : ∀ e, r = .error e → e.Final
  result : ∀ a, r = .ok a → Q a

namespace Settles

variable {α β : Type} {r : Parse α} {f : α → Parse β} {Q : α → Prop} {R : β → Prop} {a : α}

theorem pure (h : Q a) : Settles (Pure.pure a) Q :=
  ⟨fun _ heq => (nomatch heq), fun _ heq => Except.ok.inj heq ▸ h⟩

theorem throw {e : Stop} (he : e.Final) : Settles (MonadExcept.throw e : Parse α) Q :=
  ⟨fun _ heq => Except.error.inj heq ▸ he, fun _ heq => (nomatch heq)⟩

theorem refused : Settles (MonadExcept.throw .refused : Parse α) Q := throw (by decide)

theorem bind (h : Settles r Q) (hf : ∀ a, Q a → Settles (f a) R) : Settles (r >>= f) R := by
  cases hr : r with
  | ok a => exact hf a (h.result a hr)
  | error e =>
    refine ⟨fun e' heq => h.stop e' ?_, fun _ heq => (nomatch heq)⟩
    rw [hr, ← Except.error.inj heq]

end Settles

section Elements

variable {contents : List Char → List Attr → Option Nat}

end Elements

end LibQuo.Xml
