/-
  ScopeScript.Proofs.Session.ReadOnly

  A tree without assignments leaves the store as it is, whether it succeeds or
  fails. The only action on a session that writes is that of an assignment, so
  the store is kept by induction on trees (`keeps_evaluate`).
-/
import ScopeScript.Proofs.Session.Actions

namespace ScopeScript
namespace Expr

mutual

/-- Whether there is an assignment anywhere in a tree. -/
def hasAssignment : Expr → Bool
  | int _ _ | double _ _ | string _ _ => false
  | read _ address => anyAssignment address
  | assign _ _ _ _ => true
  | binary _ _ left right => left.hasAssignment || right.hasAssignment
  | list _ elements => anyAssignment elements
  | object _ entries => anyEntryAssignment entries
  | call _ callee arguments => anyAssignment callee || anyAssignment arguments

def anyAssignment : List Expr → Bool
  | [] => false
  | e :: es => e.hasAssignment || anyAssignment es

def anyEntryAssignment : List (Expr × Expr) → Bool
  | [] => false
  | (k, v) :: ps => k.hasAssignment || v.hasAssignment || anyEntryAssignment ps

end

end Expr

namespace Action

variable {α β : Type}

/-- The action leaves the store as it is, also where it fails. -/
structure Keeps (f : Action α) : Prop where
  ok : ∀ {s s' : Session} {a : α}, f s = .ok a s' → s'.store = s.store
  error : ∀ {s s' : Session} {e : RuntimeError}, f s = .error e s' → s'.store = s.store

namespace Keeps

theorem pure (a : α) : Keeps (Pure.pure a) where
  ok h := by cases h; rfl
  error h := by cases h

theorem throw (e : RuntimeError) : Keeps (MonadExcept.throw e : Action α) where
  ok h := by cases h
  error h := by cases h; rfl

theorem ofExcept (x : Except RuntimeError α) : Keeps (Action.ofExcept x) := by
  cases x with
  | ok a => exact .pure a
  | error e => exact .throw e

theorem ofFault (x : Except RuntimeFault α) : Keeps (Action.ofFault x) := by
  cases x with
  | ok a => exact .pure a
  | error f => exact .throw ⟨f, none⟩

theorem bind {f : Action α} {k : α → Action β} (hf : Keeps f) (hk : ∀ a, Keeps (k a)) :
    Keeps (f >>= k) where
  ok h := by
    obtain ⟨a, s₁, ha, hb⟩ := bind_eq_ok_iff.1 h
    rw [(hk a).ok hb, hf.ok ha]
  error h := by
    rcases bind_eq_error_iff.1 h with h | ⟨a, s₁, ha, hb⟩
    · exact hf.error h
    · rw [(hk a).error hb, hf.ok ha]

theorem nested {body : Action Value} (h : Keeps body) (span : Span) :
    Keeps (Action.nested span body) where
  ok {s s' v} hs := by
    obtain ⟨-, s₁, hb, rfl⟩ := nested_eq_ok_iff.1 hs
    have hstore : s₁.store = s.entered.store := h.ok hb
    exact hstore
  error {s s' e} hs := by
    -- Without a level left the body does not run at all.
    rcases nested_eq_error_iff.1 hs with ⟨-, -, rfl⟩ | ⟨-, e₁, s₁, hb, -, rfl⟩
    · rfl
    · have hstore : s₁.store = s.entered.store := h.error hb
      exact hstore

end Keeps

end Action

open ScopeScript.Action

theorem keeps_readAddress (keys : List Key) : Keeps (Session.readAddress keys) := by
  -- A read leaves the session itself as it is, not only its store.
  have hstate (s : Session) : (∃ v, Session.readAddress keys s = .ok v s) ∨
      ∃ e, Session.readAddress keys s = .error e s := by
    cases keys with
    | nil => exact .inl ⟨_, rfl⟩
    | cons head path =>
      rw [Session.readAddress]
      cases Target.read s.store head path with
      | ok v => exact .inl ⟨v, rfl⟩
      | error e => exact .inr ⟨e, rfl⟩
  constructor
  · intro s s' v h
    rcases hstate s with ⟨w, hw⟩ | ⟨e, he⟩
    · rw [hw] at h
      cases h
      rfl
    · rw [he] at h
      cases h
  · intro s s' e h
    rcases hstate s with ⟨w, hw⟩ | ⟨e', he⟩
    · rw [hw] at h
      cases h
    · rw [he] at h
      cases h
      rfl

mutual

/-- A tree without assignments leaves the store as it is. -/
theorem keeps_evaluate : ∀ e : Expr, e.hasAssignment = false → Keeps (evaluate e)
  | .int span _, _ => .nested (.pure _) span
  | .double span _, _ => .nested (.pure _) span
  | .string span _, _ => .nested (.pure _) span
  | .read span address, h =>
    .nested (.bind (keeps_evaluateAll address h) keeps_readAddress) span
  | .assign _ _ _ _, h => nomatch h
  | .binary span _ left right, h => by
    rw [Expr.hasAssignment, Bool.or_eq_false_iff] at h
    have hleft := keeps_evaluate left h.1
    have hright := keeps_evaluate right h.2
    exact .nested (.bind hleft fun _ => .bind hright fun _ => .ofFault _) span
  | .list span elements, h =>
    .nested (.bind (keeps_evaluateAll elements h) fun _ => .pure _) span
  | .object span entries, h =>
    .nested (.bind (keeps_evaluateEntries [] entries h) fun _ => .pure _) span
  -- What stands in a call is not evaluated.
  | .call span _ _, _ => .nested (.throw _) span

theorem keeps_evaluateAll :
    ∀ es : List Expr, Expr.anyAssignment es = false → Keeps (evaluateAll es)
  | [], _ => .pure _
  | e :: es, h => by
    rw [Expr.anyAssignment, Bool.or_eq_false_iff] at h
    exact .bind (keeps_evaluate e h.1) fun _ => .bind (keeps_evaluateAll es h.2) fun _ => .pure _

theorem keeps_evaluateEntries : ∀ (o : Object) (ps : List (Expr × Expr)),
    Expr.anyEntryAssignment ps = false → Keeps (evaluateEntries o ps)
  | _, [], _ => .pure _
  | _, (key, value) :: ps, h => by
    rw [Expr.anyEntryAssignment, Bool.or_eq_false_iff, Bool.or_eq_false_iff] at h
    have hkey := keeps_evaluate key h.1.1
    have hvalue := keeps_evaluate value h.1.2
    exact .bind hkey fun _ => .bind (.ofExcept _) fun _ => .bind hvalue fun _ =>
      keeps_evaluateEntries _ ps h.2

end

end ScopeScript
