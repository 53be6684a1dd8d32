/-
  ScopeScript.Proofs.Session.Steps

  What is done with a session between statements: something runs in it, a scope
  is opened or left, or all that programs have bound is forgotten. Steps are
  taken one after another; one that fails leaves the session as its action has
  left it, and the next goes on from there.
-/
import ScopeScript.Source
import ScopeScript.Proofs.Session.Unlimited

namespace ScopeScript

/-- What a run comes to, whatever session it leaves. -/
def Run.outcome {α : Type} : Run α → Except RuntimeError α
  | .ok a _ => .ok a
  | .error e _ => .error e

/-- A step that runs something of a kind, or changes the scopes. -/
inductive Step (α : Type) where
  | run (it : α)
  /-- Open a nested scope. -/
  | descend
  /-- Leave the newest nested scope. -/
  | ascend
  /-- Forget all that programs have bound. -/
  | reset

/-- What a step answers. -/
inductive Answer (β : Type) where
  | result (value : β)
  /-- The number of frames, the one just opened included. -/
  | depth (frames : Nat)
  | done

namespace Step

variable {α β : Type} (run : α → Action β)

/-- What a step does, where `run` tells how things are run. -/
def act : Step α → Action (Answer β)
  | .run it => do
    let value ← run it
    return .result value
  | .descend => fun s =>
    .ok (.depth s.store.descend.depth) { s with store := s.store.descend }
  | .ascend => fun s =>
    match s.store.ascend with
    | .ok store => .ok .done { s with store := store }
    | .error f => .error ⟨f, none⟩ s
  | .reset => fun s => .ok .done s.reset

/-- What steps come to, one after another. -/
def outcomes : List (Step α) → Session → List (Except RuntimeError (Answer β))
  | [], _ => []
  | step :: rest, s =>
    (Run.outcome (step.act run s)) :: outcomes rest (Run.session (step.act run s))

/-- The session behind steps. -/
def after : List (Step α) → Session → Session
  | [], s => s
  | step :: rest, s => after rest (Run.session (step.act run s))

theorem after_append (steps others : List (Step α)) (s : Session) :
    after run (steps ++ others) s = after run others (after run steps s) := by
  induction steps generalizing s with
  | nil => rfl
  | cons step steps ih => exact ih _

/-- What is run is all that a step of running does to the session. -/
theorem session_act_run (it : α) (s : Session) :
    Run.session ((Step.run it).act run s) = Run.session (run it s) := by
  show Run.session ((run it >>= fun value => pure (.result value) : Action (Answer β)) s) = _
  cases h : run it s with
  | ok value s' => rw [Action.bind_of_ok h]; rfl
  | error e s' => rw [Action.bind_of_error h]; rfl

/-- Steps that leave every scope that they open and no other one. -/
inductive Balanced : List (Step α) → Prop where
  | nil : Balanced []
  | run (it : α) {rest : List (Step α)} (h : Balanced rest) : Balanced (.run it :: rest)
  | scope {inner rest : List (Step α)} (hinner : Balanced inner) (h : Balanced rest) :
    Balanced (.descend :: (inner ++ .ascend :: rest))

end Step

/-! ## Source texts -/

/-- A source text and how many levels it may nest. -/
structure SourceText where
  limit : Nat
  text : String

/-- Run a source text. One that is no program does nothing. -/
def SourceText.run (t : SourceText) : Action (List Value) :=
  match Program.ofSource t.limit t.text with
  | .ok p => p.run
  | .error _ => return []

end ScopeScript
