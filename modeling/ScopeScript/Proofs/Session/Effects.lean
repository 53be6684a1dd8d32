/-
  ScopeScript.Proofs.Session.Effects

  What evaluation does to the store, as a relation between the store before it
  and the one behind it. Only assignments write, so a preorder that every write
  of an assignment keeps is kept by the whole evaluation, whether it succeeds or
  fails (`moves_evaluate`).
-/
import Mathlib.Order.Defs.Unbundled
import ScopeScript.Proofs.Expr.Assignments
import ScopeScript.Proofs.Session.Unlimited

namespace ScopeScript

/-! ## Actions -/

/-- The store behind an action is related to the one before it, also where the
    action fails. -/
def Moves (R : Store → Store → Prop) {α : Type} (f : Action α) (s : Session) : Prop :=
  R s.store (Run.session (f s)).store

namespace Moves

variable {R : Store → Store → Prop} [IsPreorder Store R] {α β : Type} {s : Session}

theorem of_store_eq {f : Action α} (h : (Run.session (f s)).store = s.store) : Moves R f s := by
  rw [Moves, h]
  exact Std.Refl.refl _

theorem pure (a : α) : Moves R (Pure.pure a) s :=
  of_store_eq rfl

theorem throw (e : RuntimeError) : Moves R (MonadExcept.throw e : Action α) s :=
  of_store_eq rfl

theorem ofExcept (x : Except RuntimeError α) : Moves R (Action.ofExcept x) s := by
  cases x with
  | ok a => exact .pure a
  | error e => exact .throw e

theorem ofFault (x : Except RuntimeFault α) : Moves R (Action.ofFault x) s := by
  cases x with
  | ok a => exact .pure a
  | error f => exact .throw ⟨f, none⟩

theorem bind {f : Action α} {k : α → Action β} (hf : Moves R f s)
    (hk : ∀ a s₁, f s = .ok a s₁ → Moves R (k a) s₁) : Moves R (f >>= k) s := by
  rw [Moves] at hf ⊢
  cases h : f s with
  | ok a s₁ =>
    rw [h] at hf
    rw [Action.bind_of_ok h]
    exact IsTrans.trans _ _ _ hf (hk a s₁ h)
  | error e s₁ =>
    rw [h] at hf
    rw [Action.bind_of_error h]
    exact hf

theorem nested {body : Action Value} (span : Span) (h : Moves R body s.entered) :
    Moves R (Action.nested span body) s := by
  rw [Moves, Action.nested]
  split
  · exact Std.Refl.refl _
  · have hbody : R s.store (Run.session (body s.entered)).store := h
    cases hs : body s.entered with
    | ok v s₁ => rw [hs] at hbody; exact hbody
    | error e s₁ => rw [hs] at hbody; exact hbody

theorem readAddress (keys : List Key) : Moves R (Session.readAddress keys) s := by
  refine of_store_eq ?_
  cases keys with
  | nil => rfl
  | cons head path =>
    rw [Session.readAddress]
    cases Target.read s.store head path <;> rfl

/-- An assignment moves the store as its right-hand side and its write do. -/
theorem write {keys : List Key} {right : Action Value} {yieldsOld : Bool} (hright : Moves R right s)
    (hcommit : ∀ target old, Target.resolve s.store keys yieldsOld = .ok (target, old) →
      ∀ mark value s₁, Moves R (target.commit mark value) s₁) :
    Moves R (Assignment.write keys right yieldsOld) s := by
  rw [Moves, Assignment.write]
  cases hres : Target.resolve s.store keys yieldsOld with
  | error e => exact Std.Refl.refl _
  | ok r =>
    have hall : Moves R (right >>= fun value =>
        r.1.commit s.writes.length value >>= fun _ => Pure.pure (r.2.getD value)) s :=
      .bind hright fun value s₁ _ => .bind (hcommit r.1 r.2 hres _ value s₁) fun _ _ _ => .pure _
    exact hall

end Moves

/-! ## Trees -/

/-- Whatever targets an address resolves to, writing to them keeps `R`. -/
def CommitsWithin (R : Store → Store → Prop) (address : List Expr) : Prop :=
  ∀ s keys s₁, evaluateAll address s = .ok keys s₁ →
    ∀ yieldsOld target old, Target.resolve s₁.store keys yieldsOld = .ok (target, old) →
      ∀ mark value s₂, Moves R (target.commit mark value) s₂

section Trees

variable {R : Store → Store → Prop} [IsPreorder Store R]

mutual

/-- What every assignment of a tree keeps when it writes, the evaluation of the
    tree keeps. -/
theorem moves_evaluate : ∀ (e : Expr) (s : Session), e.AssignsTo (CommitsWithin R) →
    Moves R (evaluate e) s
  | .int span _, _, _ => .nested span (.pure _)
  | .double span _, _, _ => .nested span (.pure _)
  | .string span _, _, _ => .nested span (.pure _)
  | .read span address, _, h =>
    .nested span (.bind (moves_evaluateAll address _ h) fun keys _ _ => .readAddress keys)
  | .assign span address right yieldsOld, s, h => by
    obtain ⟨hcommit, haddress, hright⟩ := h
    rw [Assignment.evaluate_assign]
    refine .nested span (.bind (moves_evaluateAll address _ haddress) fun keys s₁ hkeys => ?_)
    refine .write (moves_evaluate right s₁ hright) fun target old hres mark value s₂ => ?_
    exact hcommit _ keys s₁ hkeys yieldsOld target old hres mark value s₂
  | .binary span _ left right, _, h =>
    .nested span (.bind (moves_evaluate left _ h.1) fun _ s₁ _ =>
      .bind (moves_evaluate right s₁ h.2) fun _ _ _ => .ofFault _)
  | .list span elements, _, h =>
    .nested span (.bind (moves_evaluateAll elements _ h) fun _ _ _ => .pure _)
  | .object span entries, _, h =>
    .nested span (.bind (moves_evaluateEntries [] entries _ h) fun _ _ _ => .pure _)
  | .call span _ _, _, _ => .nested span (.throw _)

theorem moves_evaluateAll : ∀ (es : List Expr) (s : Session),
    Expr.AllAssignTo (CommitsWithin R) es → Moves R (evaluateAll es) s
  | [], _, _ => .pure _
  | e :: es, s, h =>
    .bind (moves_evaluate e s h.1) fun _ s₁ _ =>
      .bind (moves_evaluateAll es s₁ h.2) fun _ _ _ => .pure _

theorem moves_evaluateEntries : ∀ (o : Object) (ps : List (Expr × Expr)) (s : Session),
    Expr.EntriesAssignTo (CommitsWithin R) ps → Moves R (evaluateEntries o ps) s
  | _, [], _, _ => .pure _
  | _, (key, value) :: ps, s, h =>
    .bind (moves_evaluate key s h.1) fun _ _ _ => .bind (.ofExcept _) fun _ s₂ _ =>
      .bind (moves_evaluate value s₂ h.2.1) fun _ s₃ _ => moves_evaluateEntries _ ps s₃ h.2.2

end

/-- What every statement of a program keeps, the run of the program keeps. -/
theorem moves_evaluateStatements {es : List Expr} (h : ∀ e ∈ es, ∀ s, Moves R (evaluate e) s)
    (s : Session) : Moves R (evaluateStatements es) s := by
  induction es generalizing s with
  | nil => exact .pure _
  | cons e es ih =>
    obtain ⟨he, hes⟩ := List.forall_mem_cons.1 h
    exact .bind (he s) fun _ s₁ _ => .bind (ih hes s₁) fun _ _ _ => .pure _

end Trees

end ScopeScript
