/-
  ScopeScript.Proofs.Expr.Relocation

  Trees that stand elsewhere in a source. A relocation gives each range another
  one; it changes a tree, a key, a token or an error in its ranges only. To
  forget the ranges of a tree is to give all of them the same.
-/
import ScopeScript.RuntimeError
import ScopeScript.Value.Member
import ScopeScript.Proofs.Expr.Bare

namespace ScopeScript

/-- The same token elsewhere. -/
def Lexeme.relocate (f : Span → Span) (t : Lexeme) : Lexeme :=
  { t with span := f t.span }

/-- The same key elsewhere. -/
def Key.relocate (f : Span → Span) (k : Key) : Key :=
  { k with span := f k.span }

/-- The same error elsewhere, if it is anywhere. -/
def RuntimeError.relocate (f : Span → Span) (e : RuntimeError) : RuntimeError :=
  { e with span := e.span.map f }

@[simp] theorem Key.value_relocate (f : Span → Span) (k : Key) : (k.relocate f).value = k.value :=
  rfl

@[simp] theorem Key.relocate_id (k : Key) : k.relocate id = k := rfl

@[simp] theorem RuntimeError.relocate_id (e : RuntimeError) : e.relocate id = e := by
  rw [relocate, Option.map_id]
  rfl

/-- An error that gets a range gets the relocated one where it is relocated. -/
theorem RuntimeError.relocate_located (f : Span → Span) (span : Span) (e : RuntimeError) :
    (e.located span).relocate f = (e.relocate f).located (f span) := by
  cases e with | mk fault place => cases place <;> rfl

namespace Expr

mutual

/-- The tree with its source ranges changed. -/
def relocate (f : Span → Span) : Expr → Expr
  | int s n => int (f s) n
  | double s d => double (f s) d
  | string s t => string (f s) t
  | read s address => read (f s) (relocateAll f address)
  | assign s address right yieldsOld =>
    assign (f s) (relocateAll f address) (right.relocate f) yieldsOld
  | binary s op left right => binary (f s) op (left.relocate f) (right.relocate f)
  | list s elements => list (f s) (relocateAll f elements)
  | object s entries => object (f s) (relocateEntries f entries)
  | call s callee arguments => call (f s) (relocateAll f callee) (relocateAll f arguments)

def relocateAll (f : Span → Span) : List Expr → List Expr
  | [] => []
  | e :: es => e.relocate f :: relocateAll f es

def relocateEntries (f : Span → Span) : List (Expr × Expr) → List (Expr × Expr)
  | [] => []
  | (k, v) :: ps => (k.relocate f, v.relocate f) :: relocateEntries f ps

end

variable (f : Span → Span)

@[simp] theorem span_relocate (e : Expr) : (e.relocate f).span = f e.span := by
  cases e <;> rfl

theorem relocateAll_eq_map (es : List Expr) : relocateAll f es = es.map (relocate f) := by
  induction es with
  | nil => rfl
  | cons e es ih => rw [relocateAll, ih, List.map_cons]

mutual

/-- The relocation that changes no range changes no tree. -/
@[simp] theorem relocate_id : ∀ e : Expr, e.relocate id = e
  | int _ _ | double _ _ | string _ _ => rfl
  | read _ address => by rw [relocate, relocateAll_id address, id]
  | assign _ address right _ => by rw [relocate, relocateAll_id address, relocate_id right, id]
  | binary _ _ left right => by rw [relocate, relocate_id left, relocate_id right, id]
  | list _ elements => by rw [relocate, relocateAll_id elements, id]
  | object _ entries => by rw [relocate, relocateEntries_id entries, id]
  | call _ callee arguments => by rw [relocate, relocateAll_id callee, relocateAll_id arguments, id]

theorem relocateAll_id : ∀ es : List Expr, relocateAll id es = es
  | [] => rfl
  | e :: es => by rw [relocateAll, relocate_id e, relocateAll_id es]

theorem relocateEntries_id : ∀ ps : List (Expr × Expr), relocateEntries id ps = ps
  | [] => rfl
  | (k, v) :: ps => by rw [relocateEntries, relocate_id k, relocate_id v, relocateEntries_id ps]

end

mutual

/-- The bare form of a tree is the tree with all of it in one place. -/
theorem bare_eq_relocate : ∀ e : Expr, e.bare = e.relocate fun _ => nowhere
  | int _ _ | double _ _ | string _ _ => by rw [bare, relocate]
  | read _ address => by rw [bare, relocate, bareAll_eq_relocateAll address]
  | assign _ address right _ => by
    rw [bare, relocate, bareAll_eq_relocateAll address, bare_eq_relocate right]
  | binary _ _ left right => by rw [bare, relocate, bare_eq_relocate left, bare_eq_relocate right]
  | list _ elements => by rw [bare, relocate, bareAll_eq_relocateAll elements]
  | object _ entries => by rw [bare, relocate, bareEntries_eq_relocateEntries entries]
  | call _ callee arguments => by
    rw [bare, relocate, bareAll_eq_relocateAll callee, bareAll_eq_relocateAll arguments]

theorem bareAll_eq_relocateAll : ∀ es : List Expr, bareAll es = relocateAll (fun _ => nowhere) es
  | [] => by rw [bareAll, relocateAll]
  | e :: es => by rw [bareAll, relocateAll, bare_eq_relocate e, bareAll_eq_relocateAll es]

theorem bareEntries_eq_relocateEntries :
    ∀ ps : List (Expr × Expr), bareEntries ps = relocateEntries (fun _ => nowhere) ps
  | [] => by rw [bareEntries, relocateEntries]
  | (k, v) :: ps => by
    rw [bareEntries, relocateEntries, bare_eq_relocate k, bare_eq_relocate v,
      bareEntries_eq_relocateEntries ps]

end

theorem relocateAll_append (es fs : List Expr) :
    relocateAll f (es ++ fs) = relocateAll f es ++ relocateAll f fs := by
  simp only [relocateAll_eq_map, List.map_append]

theorem relocate_withSpan (s : Span) (e : Expr) :
    (e.withSpan s).relocate f = (e.relocate f).withSpan (f s) := by
  cases e <;> rfl

end Expr

/-! ## Composed forms -/

/-- The range around two others goes to the range around where they go. -/
structure Span.KeepsMerges (f : Span → Span) : Prop where
  map_merge : ∀ a b : Span, f (a.merge b) = (f a).merge (f b)

theorem Span.keepsMerges_id : KeepsMerges id :=
  ⟨fun _ _ => rfl⟩

theorem Span.keepsMerges_shift (k : Nat) : KeepsMerges (shift k) :=
  ⟨fun a b => by simp only [shift, merge, Nat.add_min_add_right, Nat.add_max_add_right]⟩

namespace Grammar

open ScopeScript.Expr

variable {f : Span → Span}

theorem target_relocate {use : TargetUse} {e : Expr} {address : List Expr}
    (h : target use e = .ok address) :
    target use (e.relocate f) = .ok (relocateAll f address) := by
  obtain ⟨⟨span, key, keys, rfl⟩, rfl⟩ := target_eq_ok_iff.1 h
  rfl

theorem relocate_step (op : BinaryOp) (address : List Expr) (span : Span) (yieldsOld : Bool) :
    (step op address span yieldsOld).relocate f =
      step op (relocateAll f address) (f span) yieldsOld := rfl

theorem relocate_printing (sign span : Span) (arguments : List Expr) :
    (printing sign span arguments).relocate f =
      printing (f sign) (f span) (relocateAll f arguments) := rfl

variable (hf : Span.KeepsMerges f)
include hf

theorem relocate_operation (op : BinaryOp) (left right : Expr) :
    (operation op left right).relocate f = operation op (left.relocate f) (right.relocate f) := by
  simp only [operation, relocate, hf.map_merge, span_relocate]

theorem relocate_negation (sign : Span) (e : Expr) :
    (negation sign e).relocate f = negation (f sign) (e.relocate f) := by
  -- Only a number literal takes the sign into its value.
  cases e <;> simp only [negation, relocate, hf.map_merge, Expr.span]

theorem relocate_assignment (sign : AssignSign) (address : List Expr) (place : Span)
    (right : Expr) : (assignment sign address place right).relocate f =
      assignment sign (relocateAll f address) (f place) (right.relocate f) := by
  cases sign <;> simp only [assignment, relocate, hf.map_merge, span_relocate]

end Grammar
end ScopeScript
