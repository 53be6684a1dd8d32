/-
  ScopeScript.Proofs.Expr.Height

  The height of a tree, all its parts counted: the keys of addresses, callees and
  arguments too. Source ranges do not matter for it, so the heights of the
  composed forms are read off their bare ones.
-/
import ScopeScript.Proofs.Expr.Bare

namespace ScopeScript
namespace Expr

mutual

/-- A literal is one node high, any other tree one more than its highest part. -/
def height : Expr → Nat
  | int _ _ | double _ _ | string _ _ => 1
  | read _ address => 1 + heightAll address
  | assign _ address right _ => 1 + max (heightAll address) right.height
  | binary _ _ left right => 1 + max left.height right.height
  | list _ elements => 1 + heightAll elements
  | object _ entries => 1 + heightEntries entries
  | call _ callee arguments => 1 + max (heightAll callee) (heightAll arguments)

def heightAll : List Expr → Nat
  | [] => 0
  | e :: es => max e.height (heightAll es)

def heightEntries : List (Expr × Expr) → Nat
  | [] => 0
  | (k, v) :: ps => max (max k.height v.height) (heightEntries ps)

end

theorem height_pos (e : Expr) : 1 ≤ e.height := by
  cases e <;> rw [height] <;> omega

/-- Lists in a row are as high as the higher of them. -/
theorem heightAll_append (es fs : List Expr) :
    heightAll (es ++ fs) = max (heightAll es) (heightAll fs) := by
  induction es with
  | nil => simp only [List.nil_append, heightAll, Nat.zero_max]
  | cons e es ih => simp only [List.cons_append, heightAll, ih, Nat.max_assoc]

theorem heightAll_concat (es : List Expr) (e : Expr) :
    heightAll (es ++ [e]) = max (heightAll es) e.height := by
  rw [heightAll_append, heightAll, heightAll, Nat.max_zero]

mutual

/-- Source ranges add no height. -/
theorem height_bare : ∀ e : Expr, e.bare.height = e.height
  | int _ _ | double _ _ | string _ _ => rfl
  | read _ address => by rw [bare, height, height, heightAll_bareAll address]
  | assign _ address right _ => by
    rw [bare, height, height, heightAll_bareAll address, height_bare right]
  | binary _ _ left right => by rw [bare, height, height, height_bare left, height_bare right]
  | list _ elements => by rw [bare, height, height, heightAll_bareAll elements]
  | object _ entries => by rw [bare, height, height, heightEntries_bareEntries entries]
  | call _ callee arguments => by
    rw [bare, height, height, heightAll_bareAll callee, heightAll_bareAll arguments]

theorem heightAll_bareAll : ∀ es : List Expr, heightAll (bareAll es) = heightAll es
  | [] => rfl
  | e :: es => by rw [bareAll, heightAll, heightAll, height_bare e, heightAll_bareAll es]

theorem heightEntries_bareEntries :
    ∀ ps : List (Expr × Expr), heightEntries (bareEntries ps) = heightEntries ps
  | [] => rfl
  | (k, v) :: ps => by
    rw [bareEntries, heightEntries, heightEntries, height_bare k, height_bare v,
      heightEntries_bareEntries ps]

end

/-- The address that a tree reads is less high than the tree. -/
theorem heightAll_location_lt (e : Expr) : heightAll e.location < e.height := by
  have hpos := e.height_pos
  cases e with
  | read span address =>
    rw [location, height]
    omega
  | _ => exact hpos

end Expr

namespace Grammar

open ScopeScript.Expr

/-! ## Composed forms -/

/-- The sign of a number is read into it, and any other sign puts a node above its tree. -/
theorem height_negated_le (e : Expr) : (negated e).height ≤ 1 + e.height := by
  have hpos := e.height_pos
  cases e with
  | int _ _ | double _ _ => exact Nat.le_add_left _ _
  | _ =>
    simp only [negated, height] at hpos ⊢
    omega

/-- A step adds three nodes to the address that it names twice. -/
theorem height_stepped (op : BinaryOp) (address : List Expr) (yieldsOld : Bool) :
    (stepped op address yieldsOld).height = 3 + heightAll address := by
  simp only [stepped, height]
  omega

theorem height_assigned_le (sign : AssignSign) (address : List Expr) (right : Expr) :
    (assigned sign address right).height ≤ 2 + max (1 + heightAll address) right.height := by
  cases sign with
  | plain =>
    simp only [assigned, height]
    omega
  | compound op =>
    simp only [assigned, height]
    omega

/-- A print statement is a read of a call, whose address and arguments are below both. -/
theorem height_printCall (arguments : List Expr) :
    (printCall arguments).height = 2 + max 1 (heightAll arguments) := by
  simp only [printCall, Builtin.address, height, heightAll]
  omega

end Grammar
end ScopeScript
