/-
  ScopeScript.Proofs.Session.Relocation

  Source ranges are reported and nothing else. A tree that stands elsewhere has
  the same value and leaves the same session, and its error is the same one
  elsewhere.
-/
import ScopeScript.Proofs.Session.Effects
import ScopeScript.Proofs.Session.Transport

namespace ScopeScript

/-- The same run, with an error elsewhere. -/
def Run.relocate {α : Type} (f : Span → Span) : Run α → Run α
  | .ok a s => .ok a s
  | .error e s => .error (e.relocate f) s

@[simp] theorem Run.session_relocate {α : Type} (f : Span → Span) (r : Run α) :
    (r.relocate f).session = r.session := by
  cases r <;> rfl

/-- A change of source ranges alone. -/
def Transport.relocation (f : Span → Span) : Transport where
  store := id
  place := f
  depth_eq _ := rfl
  current_eq _ := rfl
  find?_eq _ _ := rfl
  binding?_eq _ _ _ _ := rfl
  bind_eq _ _ _ _ _ := rfl

variable (f : Span → Span)

theorem evaluate_relocate (e : Expr) (s : Session) :
    evaluate (e.relocate f) s = Run.relocate f (evaluate e s) := by
  refine (Transport.carries_evaluate (T := .relocation f) e s).trans ?_
  cases evaluate e s <;> rfl

theorem evaluateStatements_relocate (es : List Expr) (s : Session) :
    evaluateStatements (es.map (Expr.relocate f)) s = Run.relocate f (evaluateStatements es s) := by
  rw [← Expr.relocateAll_eq_map]
  refine (Transport.carries_evaluateStatements (T := .relocation f) es s).trans ?_
  cases evaluateStatements es s <;> rfl

/-- What a tree does to the store is what its bare form does. -/
theorem moves_evaluate_bare {R : Store → Store → Prop} {e : Expr} {s : Session} :
    Moves R (evaluate e.bare) s ↔ Moves R (evaluate e) s := by
  rw [Moves, Moves, Expr.bare_eq_relocate, evaluate_relocate, Run.session_relocate]

end ScopeScript
