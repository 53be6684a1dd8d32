/-
  ScopeScript.Proofs.Session.Host

  What the host has bound and what is evaluated have nothing to do with each
  other. Two sessions that differ in the host's frame only give the same results
  and errors and go on to differ in that frame only, and neither loses what its
  host has bound; this holds for every tree, those without a source text
  included, and for any steps between evaluations.
-/
import ScopeScript.Proofs.Session.Steps
import ScopeScript.Proofs.Session.Transport

namespace ScopeScript

/-- The store with another frame of the host's. -/
def Store.withHost (s : Store) (host : Object) : Store :=
  { s with host := host }

theorem Store.ascend_withHost (s : Store) (host : Object) :
    (s.withHost host).ascend = s.ascend.map (·.withHost host) := by
  show (if s.nested.isEmpty then _ else _) = _
  rw [ascend]
  split <;> rfl

/-- The session with another frame of the host's. -/
def Session.withHost (s : Session) (host : Object) : Session :=
  { s with store := s.store.withHost host }

/-- The same run, leaving a session with another frame of the host's. -/
def Run.withHost {α : Type} (host : Object) : Run α → Run α
  | .ok a s => .ok a (s.withHost host)
  | .error e s => .error e (s.withHost host)

@[simp] theorem Run.outcome_withHost {α : Type} (host : Object) (r : Run α) :
    (r.withHost host).outcome = r.outcome := by
  cases r <;> rfl

@[simp] theorem Run.session_withHost {α : Type} (host : Object) (r : Run α) :
    (r.withHost host).session = r.session.withHost host := by
  cases r <;> rfl

/-! ## Evaluation -/

/-- Another frame of the host's. Names are looked up above it, and frames above it
    are bound in. -/
def Transport.host (host : Object) : Transport where
  store s := s.withHost host
  place := id
  depth_eq _ := rfl
  current_eq _ := rfl
  find?_eq _ _ := rfl
  binding?_eq s frame key h := by
    obtain ⟨n, rfl⟩ := Nat.exists_eq_succ_of_ne_zero h
    rfl
  bind_eq s frame key value h := by
    obtain ⟨n, rfl⟩ := Nat.exists_eq_succ_of_ne_zero h
    cases n <;> rfl

theorem evaluate_withHost (e : Expr) (s : Session) (host : Object) :
    evaluate e (s.withHost host) = Run.withHost host (evaluate e s) := by
  have h := Transport.carries_evaluate (T := .host host) e s
  rw [show (Transport.host host).place = id from rfl, Expr.relocate_id] at h
  refine h.trans ?_
  cases evaluate e s with
  | ok v s₁ => rfl
  | error e s₁ => exact congrArg (EStateM.Result.error · _) e.relocate_id

/-! ## Steps -/

namespace Step

/-- A step is the same whatever the host has bound. -/
theorem act_withHost (step : Step Expr) (s : Session) (host : Object) :
    step.act evaluate (s.withHost host) = Run.withHost host (step.act evaluate s) := by
  cases step with
  | run e =>
    have h := evaluate_withHost e s host
    show (evaluate e >>= fun v => pure (.result v) : Action (Answer Value)) _ = _
    cases hs : evaluate e s with
    | ok v s₁ => rw [hs] at h; rw [act, Action.bind_of_ok h, Action.bind_of_ok hs]; rfl
    | error e' s₁ => rw [hs] at h; rw [act, Action.bind_of_error h, Action.bind_of_error hs]; rfl
  | descend => rfl
  | ascend =>
    simp only [act, Session.withHost, Store.ascend_withHost]
    cases s.store.ascend <;> rfl
  | reset => rfl

/-- Steps come to the same whatever the host has bound, and leave it there. -/
theorem outcomes_withHost (steps : List (Step Expr)) (s : Session) (host : Object) :
    outcomes evaluate steps (s.withHost host) = outcomes evaluate steps s ∧
      after evaluate steps (s.withHost host) = (after evaluate steps s).withHost host := by
  induction steps generalizing s with
  | nil => exact ⟨rfl, rfl⟩
  | cons step steps ih =>
    simp only [outcomes, after, act_withHost, Run.outcome_withHost, Run.session_withHost]
    obtain ⟨houtcomes, hafter⟩ := ih (Run.session (step.act evaluate s))
    exact ⟨congrArg _ houtcomes, hafter⟩

end Step

/-- Whatever the host has bound, a tree comes to the same, and so do steps; what
    they leave differs in the host's frame only, which stays as it was. -/
theorem host_isolated (s : Session) (host : Object) :
    (∀ e : Expr, evaluate e (s.withHost host) = Run.withHost host (evaluate e s) ∧
      (Run.session (evaluate e s)).store.host = s.store.host) ∧
    ∀ steps : List (Step Expr),
      Step.outcomes evaluate steps (s.withHost host) = Step.outcomes evaluate steps s ∧
      Step.after evaluate steps (s.withHost host) = (Step.after evaluate steps s).withHost host ∧
      (Step.after evaluate steps s).store.host = s.store.host := by
  -- A session is its own with the frame that its host has anyway.
  have hself : s.withHost s.store.host = s := rfl
  refine ⟨fun e => ⟨evaluate_withHost e s host, ?_⟩, fun steps => ?_⟩
  · have h := evaluate_withHost e s s.store.host
    rw [hself] at h
    rw [h, Run.session_withHost]
    rfl
  · obtain ⟨houtcomes, hafter⟩ := Step.outcomes_withHost steps s host
    refine ⟨houtcomes, hafter, ?_⟩
    have h := (Step.outcomes_withHost steps s s.store.host).2
    rw [hself] at h
    rw [h]
    rfl

end ScopeScript
