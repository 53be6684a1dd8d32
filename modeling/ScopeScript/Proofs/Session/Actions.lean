/-
  ScopeScript.Proofs.Session.Actions

  Inversion of runs. A sequence of actions fails where its first part fails, or
  where its second part fails in the session that the first one left. An
  evaluation fails at the limit or where its body fails, and the error it gives
  has a span. Proofs about failures take runs apart with these equations.
-/
import ScopeScript.Session.Evaluate

namespace ScopeScript
namespace Action

variable {α β : Type} {f : Action α} {k : α → Action β} {s s' : Session} {e : RuntimeError}

/-- A sequence fails in its first part or, after that, in its second. -/
theorem bind_eq_error_iff : (f >>= k) s = .error e s' ↔
    f s = .error e s' ∨ ∃ a s₁, f s = .ok a s₁ ∧ k a s₁ = .error e s' := by
  show EStateM.bind f k s = _ ↔ _
  rw [EStateM.bind]
  cases hf : f s with
  | ok a s₁ =>
    constructor
    · intro h
      exact .inr ⟨a, s₁, rfl, h⟩
    · rintro (h | ⟨b, s₂, h, hk⟩)
      · cases h
      · cases h
        exact hk
  | error e₁ s₁ =>
    constructor
    · intro h
      cases h
      exact .inl rfl
    · rintro (h | ⟨b, s₂, h, -⟩)
      · cases h
        rfl
      · cases h

/-- A sequence succeeds where both parts do. -/
theorem bind_eq_ok_iff {b : β} : (f >>= k) s = .ok b s' ↔
    ∃ a s₁, f s = .ok a s₁ ∧ k a s₁ = .ok b s' := by
  show EStateM.bind f k s = _ ↔ _
  rw [EStateM.bind]
  cases hf : f s with
  | ok a s₁ =>
    constructor
    · intro h
      exact ⟨a, s₁, rfl, h⟩
    · rintro ⟨c, s₂, h, hk⟩
      cases h
      exact hk
  | error e₁ s₁ =>
    constructor
    · intro h
      cases h
    · rintro ⟨c, s₂, h, -⟩
      cases h

theorem ok_of_ofExcept {x : Except RuntimeError α} {a : α} (h : ofExcept x s = .ok a s') :
    x = .ok a ∧ s' = s := by
  cases x with
  | ok b =>
    cases h
    exact ⟨rfl, rfl⟩
  | error e₁ => cases h

theorem error_of_ofExcept {x : Except RuntimeError α} (h : ofExcept x s = .error e s') :
    x = .error e ∧ s' = s := by
  cases x with
  | ok b => cases h
  | error e₁ =>
    cases h
    exact ⟨rfl, rfl⟩

theorem ok_of_ofFault {x : Except RuntimeFault α} {a : α} (h : ofFault x s = .ok a s') :
    x = .ok a ∧ s' = s := by
  cases x with
  | ok b =>
    cases h
    exact ⟨rfl, rfl⟩
  | error f => cases h

/-- A fault becomes an error that has no range yet. -/
theorem exists_fault_of_ofFault {x : Except RuntimeFault α} (h : ofFault x s = .error e s') :
    ∃ f, x = .error f ∧ e = ⟨f, none⟩ ∧ s' = s := by
  cases x with
  | ok b => cases h
  | error f =>
    cases h
    exact ⟨f, rfl, rfl, rfl⟩

theorem bind_of_ok {a : α} {s₁ : Session} (h : f s = .ok a s₁) : (f >>= k) s = k a s₁ := by
  show EStateM.bind f k s = _
  rw [EStateM.bind, h]

theorem bind_of_error (h : f s = .error e s') : (f >>= k) s = .error e s' :=
  bind_eq_error_iff.2 (.inl h)

variable {span : Span} {body : Action Value}

/-- An evaluation fails at the limit or in its body. -/
theorem nested_eq_error_iff : nested span body s = .error e s' ↔
    (s.limit ≤ s.depth ∧ e = ⟨.stackOverflow s.limit, some span⟩ ∧ s' = s) ∨
    (s.depth < s.limit ∧ ∃ e₁ s₁, body s.entered = .error e₁ s₁ ∧ e = e₁.located span ∧
      s' = s₁.left) := by
  rw [nested]
  by_cases hl : s.limit ≤ s.depth
  · rw [if_pos hl]
    constructor
    · intro h
      cases h
      exact .inl ⟨hl, rfl, rfl⟩
    · rintro (⟨-, rfl, rfl⟩ | ⟨hlt, -⟩)
      · rfl
      · omega
  · rw [if_neg hl]
    have hlt : s.depth < s.limit := by omega
    constructor
    · intro h
      cases hb : body s.entered with
      | ok v s₁ => rw [hb] at h; cases h
      | error e₁ s₁ =>
        rw [hb] at h
        cases h
        exact .inr ⟨hlt, e₁, s₁, rfl, rfl, rfl⟩
    · rintro (⟨hle, -⟩ | ⟨-, e₁, s₁, hb, rfl, rfl⟩)
      · omega
      · rw [hb]

/-- An evaluation succeeds below the limit where its body does. -/
theorem nested_eq_ok_iff {v : Value} : nested span body s = .ok v s' ↔
    s.depth < s.limit ∧ ∃ s₁, body s.entered = .ok v s₁ ∧ s' = s₁.left := by
  rw [nested]
  by_cases hl : s.limit ≤ s.depth
  · rw [if_pos hl]
    constructor
    · intro h
      cases h
    · rintro ⟨hlt, -⟩
      omega
  · rw [if_neg hl]
    have hlt : s.depth < s.limit := by omega
    constructor
    · intro h
      cases hb : body s.entered with
      | ok w s₁ =>
        rw [hb] at h
        cases h
        exact ⟨hlt, s₁, rfl, rfl⟩
      | error e₁ s₁ => rw [hb] at h; cases h
    · rintro ⟨-, s₁, hb, rfl⟩
      rw [hb]

end Action

/-! ## Evaluation -/

/-- Each tree is evaluated as a body under the span of the tree. -/
theorem exists_evaluate_eq_nested (t : Expr) : ∃ body, evaluate t = Action.nested t.span body := by
  cases t <;> exact ⟨_, rfl⟩

/-- The error of a tree has a span, so that no tree around it gives it another. -/
theorem located_of_evaluate_eq_error {t : Expr} {s s' : Session} {e : RuntimeError}
    (h : evaluate t s = .error e s') (span : Span) : e.located span = e := by
  obtain ⟨body, hb⟩ := exists_evaluate_eq_nested t
  rw [hb, Action.nested_eq_error_iff] at h
  rcases h with ⟨-, rfl, -⟩ | ⟨-, e₁, s₁, -, rfl, -⟩
  · rfl
  · exact RuntimeError.located_located t.span span e₁

/-- A sequence of trees fails in the first tree that fails. -/
theorem evaluateAll_eq_error_iff {ts : List Expr} {s s' : Session} {e : RuntimeError} :
    evaluateAll ts s = .error e s' ↔ ∃ before t after keys s₁, ts = before ++ t :: after ∧
      evaluateAll before s = .ok keys s₁ ∧ evaluate t s₁ = .error e s' := by
  induction ts generalizing s with
  | nil =>
    constructor
    · intro h
      cases h
    · rintro ⟨before, t, after, -, -, h, -⟩
      cases before <;> cases h
  | cons t ts ih =>
    rw [evaluateAll, Action.bind_eq_error_iff]
    constructor
    · rintro (h | ⟨v, s₁, hv, h⟩)
      · exact ⟨[], t, ts, [], s, rfl, rfl, h⟩
      · rcases Action.bind_eq_error_iff.1 h with h | ⟨keys, s₂, -, h⟩
        · -- The first tree has a value, so it is one of those before the failing one.
          obtain ⟨before, u, after, keys, s₂, rfl, hb, hu⟩ := ih.1 h
          refine ⟨t :: before, u, after, ⟨v, t.span⟩ :: keys, s₂, rfl, ?_, hu⟩
          rw [evaluateAll, Action.bind_of_ok hv, Action.bind_of_ok hb]
          rfl
        · cases h
    · rintro ⟨before, u, after, keys, s₁, hts, hb, hu⟩
      cases before with
      | nil =>
        cases hts
        cases hb
        exact .inl hu
      | cons t' before =>
        cases hts
        rw [evaluateAll] at hb
        obtain ⟨v, s₂, hv, hb⟩ := Action.bind_eq_ok_iff.1 hb
        obtain ⟨keys', s₃, hb, hk⟩ := Action.bind_eq_ok_iff.1 hb
        cases hk
        refine .inr ⟨v, s₂, hv, Action.bind_of_error ?_⟩
        exact ih.2 ⟨before, u, after, keys', s₁, rfl, hb, hu⟩

end ScopeScript
