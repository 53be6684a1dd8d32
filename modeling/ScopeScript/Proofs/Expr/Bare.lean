/-
  ScopeScript.Proofs.Expr.Bare

  Trees up to source ranges. The bare form of a tree has the same empty range at
  every node, so two trees differ in ranges only when their bare forms are
  equal. The forms that the grammar composes are bare where their parts are.
-/
import ScopeScript.Grammar.Program

namespace ScopeScript

/-- The range of nodes whose range does not matter. -/
def nowhere : Span := ⟨0, 0⟩

namespace Expr

mutual

/-- The tree without its source ranges. -/
@[simp] def bare : Expr → Expr
  | int _ n => int nowhere n
  | double _ d => double nowhere d
  | string _ s => string nowhere s
  | read _ address => read nowhere (bareAll address)
  | assign _ address right yieldsOld => assign nowhere (bareAll address) right.bare yieldsOld
  | binary _ op left right => binary nowhere op left.bare right.bare
  | list _ elements => list nowhere (bareAll elements)
  | object _ entries => object nowhere (bareEntries entries)
  | call _ callee arguments => call nowhere (bareAll callee) (bareAll arguments)

@[simp] def bareAll : List Expr → List Expr
  | [] => []
  | e :: es => e.bare :: bareAll es

@[simp] def bareEntries : List (Expr × Expr) → List (Expr × Expr)
  | [] => []
  | (k, v) :: ps => (k.bare, v.bare) :: bareEntries ps

end

theorem bareAll_append (es fs : List Expr) : bareAll (es ++ fs) = bareAll es ++ bareAll fs := by
  induction es with
  | nil => rfl
  | cons e es ih => rw [List.cons_append, bareAll, bareAll, ih, List.cons_append]

@[simp] theorem bare_withSpan (s : Span) (e : Expr) : (e.withSpan s).bare = e.bare := by
  cases e <;> simp only [withSpan, bare]

/-! ## What can be written to -/

/-- The tree reads a location that has a name. -/
def IsIdentifier (e : Expr) : Prop :=
  ∃ span key keys, e = read span (key :: keys)

/-- The address that a tree reads. -/
def location : Expr → List Expr
  | read _ address => address
  | _ => []

theorem isIdentifier_bare {e : Expr} : e.bare.IsIdentifier ↔ e.IsIdentifier := by
  constructor
  · rintro ⟨span, key, keys, h⟩
    cases e with
    | read s address =>
      cases address with
      | nil => simp [bare, bareAll] at h
      | cons k ks => exact ⟨s, k, ks, rfl⟩
    | _ => simp [bare] at h
  · rintro ⟨span, key, keys, rfl⟩
    exact ⟨nowhere, key.bare, bareAll keys, by simp only [bare, bareAll]⟩

end Expr

namespace Grammar

open ScopeScript.Expr

theorem target_eq_ok_iff {use : TargetUse} {e : Expr} {address : List Expr} :
    target use e = .ok address ↔ e.IsIdentifier ∧ e.location = address := by
  constructor
  · intro h
    unfold target at h
    split at h
    · next span key keys =>
      cases h
      exact ⟨⟨span, key, keys, rfl⟩, rfl⟩
    · cases h
  · rintro ⟨⟨span, key, keys, rfl⟩, rfl⟩
    rfl

/-! ## Composed forms -/

/-- What a minus sign makes of a tree: a literal takes it in. -/
def negated : Expr → Expr
  | .int _ n => .int nowhere (-n)
  | .double _ d => .double nowhere d.neg
  | e => .binary nowhere .sub (.int nowhere 0) e

/-- A step of a location by one. -/
def stepped (op : BinaryOp) (address : List Expr) (yieldsOld : Bool) : Expr :=
  .assign nowhere address (.binary nowhere op (.read nowhere address) (.int nowhere 1)) yieldsOld

/-- An assignment to a location, by an operator or not. -/
def assigned (sign : AssignSign) (address : List Expr) (right : Expr) : Expr :=
  match sign with
  | .plain => .assign nowhere address right false
  | .compound op =>
    .assign nowhere address (.binary nowhere op (.read nowhere address) right) false

/-- A call of the built-in `print`, as a read of what it names. -/
def printCall (arguments : List Expr) : Expr :=
  .read nowhere [.call nowhere (Builtin.address "print" nowhere) arguments]

theorem bare_operation (op : BinaryOp) (left right : Expr) :
    (operation op left right).bare = .binary nowhere op left.bare right.bare := by
  rw [operation, bare]

theorem bare_negation (sign : Span) (e : Expr) : (negation sign e).bare = negated e.bare := by
  cases e <;> simp only [negation, negated, bare]

theorem location_bare (e : Expr) : e.bare.location = bareAll e.location := by
  cases e <;> simp only [bare, location, bareAll]

theorem bare_step (op : BinaryOp) (address : List Expr) (span : Span) (yieldsOld : Bool) :
    (step op address span yieldsOld).bare = stepped op (bareAll address) yieldsOld := by
  simp only [step, stepped, bare]

theorem bare_assignment (sign : AssignSign) (address : List Expr) (place : Span) (right : Expr) :
    (assignment sign address place right).bare = assigned sign (bareAll address) right.bare := by
  cases sign <;> simp only [assignment, assigned, bare]

theorem bare_printing (sign span : Span) (arguments : List Expr) :
    (printing sign span arguments).bare = printCall (bareAll arguments) := by
  simp only [printing, printCall, bare, bareAll, Builtin.address]

end Grammar
end ScopeScript
