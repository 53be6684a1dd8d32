/-
  ScopeScript.Proofs.Expr.Assignments

  What a tree assigns to, as a condition on the addresses of its assignments.
  Calls are not evaluated, so what stands in them does not count. The forms that
  the grammar composes assign to the addresses that they are given.
-/
import ScopeScript.Proofs.Expr.Bare

namespace ScopeScript
namespace Expr

mutual

/-- Every assignment that the evaluation of a tree can come to has an address of
    the kind `A`. -/
def AssignsTo (A : List Expr → Prop) : Expr → Prop
  -- A call fails before any part of it is evaluated.
  | int _ _ | double _ _ | string _ _ | call _ _ _ => True
  | read _ address => AllAssignTo A address
  | assign _ address right _ => A address ∧ AllAssignTo A address ∧ right.AssignsTo A
  | binary _ _ left right => left.AssignsTo A ∧ right.AssignsTo A
  | list _ elements => AllAssignTo A elements
  | object _ entries => EntriesAssignTo A entries

def AllAssignTo (A : List Expr → Prop) : List Expr → Prop
  | [] => True
  | e :: es => e.AssignsTo A ∧ AllAssignTo A es

def EntriesAssignTo (A : List Expr → Prop) : List (Expr × Expr) → Prop
  | [] => True
  | (k, v) :: ps => k.AssignsTo A ∧ v.AssignsTo A ∧ EntriesAssignTo A ps

end

mutual

/-- Whatever an address is, it is of some kind. -/
theorem assignsTo_of_forall {A : List Expr → Prop} (h : ∀ address, A address) :
    ∀ e : Expr, e.AssignsTo A
  | int _ _ | double _ _ | string _ _ | call _ _ _ => trivial
  | read _ address => allAssignTo_of_forall h address
  | assign _ address right _ =>
    ⟨h address, allAssignTo_of_forall h address, assignsTo_of_forall h right⟩
  | binary _ _ left right => ⟨assignsTo_of_forall h left, assignsTo_of_forall h right⟩
  | list _ elements => allAssignTo_of_forall h elements
  | object _ entries => entriesAssignTo_of_forall h entries

theorem allAssignTo_of_forall {A : List Expr → Prop} (h : ∀ address, A address) :
    ∀ es : List Expr, AllAssignTo A es
  | [] => trivial
  | e :: es => ⟨assignsTo_of_forall h e, allAssignTo_of_forall h es⟩

theorem entriesAssignTo_of_forall {A : List Expr → Prop} (h : ∀ address, A address) :
    ∀ ps : List (Expr × Expr), EntriesAssignTo A ps
  | [] => trivial
  | (k, v) :: ps =>
    ⟨assignsTo_of_forall h k, assignsTo_of_forall h v, entriesAssignTo_of_forall h ps⟩

end

mutual

/-- What is of one kind is of any kind that has all of it. -/
theorem AssignsTo.mono {A B : List Expr → Prop} (h : ∀ address, A address → B address) :
    ∀ {e : Expr}, e.AssignsTo A → e.AssignsTo B
  | int _ _, _ | double _ _, _ | string _ _, _ | call _ _ _, _ => trivial
  | read _ _, ha => AllAssignTo.mono h ha
  | assign _ address _ _, ha =>
    ⟨h address ha.1, AllAssignTo.mono h ha.2.1, AssignsTo.mono h ha.2.2⟩
  | binary _ _ _ _, ha => ⟨AssignsTo.mono h ha.1, AssignsTo.mono h ha.2⟩
  | list _ _, ha => AllAssignTo.mono h ha
  | object _ _, ha => EntriesAssignTo.mono h ha

theorem AllAssignTo.mono {A B : List Expr → Prop} (h : ∀ address, A address → B address) :
    ∀ {es : List Expr}, AllAssignTo A es → AllAssignTo B es
  | [], _ => trivial
  | _ :: _, ha => ⟨AssignsTo.mono h ha.1, AllAssignTo.mono h ha.2⟩

theorem EntriesAssignTo.mono {A B : List Expr → Prop} (h : ∀ address, A address → B address) :
    ∀ {ps : List (Expr × Expr)}, EntriesAssignTo A ps → EntriesAssignTo B ps
  | [], _ => trivial
  | (_, _) :: _, ha =>
    ⟨AssignsTo.mono h ha.1, AssignsTo.mono h ha.2.1, EntriesAssignTo.mono h ha.2.2⟩

end

variable {A : List Expr → Prop} {e : Expr} {es : List Expr}

theorem allAssignTo_concat (hes : AllAssignTo A es) (he : e.AssignsTo A) :
    AllAssignTo A (es ++ [e]) := by
  -- Addresses grow at their end as they are read.
  induction es with
  | nil => exact ⟨he, trivial⟩
  | cons f es ih => exact ⟨hes.1, ih hes.2⟩

/-! ## Locations -/

/-- The location that a tree reads, if it reads one, is of the kind `A`. -/
def LocatedIn (A : List Expr → Prop) (e : Expr) : Prop :=
  e.IsIdentifier → A e.location

theorem AssignsTo.location (h : e.AssignsTo A) : AllAssignTo A e.location := by
  cases e with
  | read span address => exact h
  | _ => trivial

end Expr

namespace Grammar

open ScopeScript.Expr

variable {A : List Expr → Prop} {e right : Expr} {address : List Expr}

theorem assignsTo_negated (h : e.AssignsTo A) : (negated e).AssignsTo A := by
  cases e with
  | int _ _ | double _ _ => trivial
  | _ => exact ⟨trivial, h⟩

theorem assignsTo_stepped (op : BinaryOp) (yieldsOld : Bool) (haddress : A address)
    (h : AllAssignTo A address) : (stepped op address yieldsOld).AssignsTo A :=
  -- The address is there twice: the location is read and then written.
  ⟨haddress, h, h, trivial⟩

theorem assignsTo_assigned (sign : AssignSign) (haddress : A address) (h : AllAssignTo A address)
    (hright : right.AssignsTo A) : (assigned sign address right).AssignsTo A := by
  -- Only the compound signs read what they assign to.
  cases sign with
  | plain => exact ⟨haddress, h, hright⟩
  | compound op => exact ⟨haddress, h, h, hright⟩

end Grammar
end ScopeScript
