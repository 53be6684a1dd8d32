/-
  ScopeScript.Proofs.Expr.Size

  The number of nodes of a tree, all its parts counted: the keys of addresses,
  callees and arguments too. Source ranges do not matter for it. A step and a
  compound assignment name their address twice, so the nodes of the address count
  double.
-/
import ScopeScript.Proofs.Expr.Bare

namespace ScopeScript
namespace Expr

mutual

/-- The nodes of a tree: one more than those of its parts. -/
def nodes : Expr → Nat
  | int _ _ | double _ _ | string _ _ => 1
  | read _ address => 1 + nodesAll address
  | assign _ address right _ => 1 + nodesAll address + right.nodes
  | binary _ _ left right => 1 + left.nodes + right.nodes
  | list _ elements => 1 + nodesAll elements
  | object _ entries => 1 + nodesEntries entries
  | call _ callee arguments => 1 + nodesAll callee + nodesAll arguments

/-- The nodes of all trees of a list. -/
def nodesAll : List Expr → Nat
  | [] => 0
  | e :: es => e.nodes + nodesAll es

/-- The nodes of all keys and values. -/
def nodesEntries : List (Expr × Expr) → Nat
  | [] => 0
  | (k, v) :: ps => k.nodes + v.nodes + nodesEntries ps

end

theorem nodes_pos (e : Expr) : 1 ≤ e.nodes := by
  cases e <;> rw [nodes] <;> omega

/-- The nodes of lists in a row add up. -/
theorem nodesAll_append (es fs : List Expr) : nodesAll (es ++ fs) = nodesAll es + nodesAll fs := by
  induction es with
  | nil => rw [List.nil_append, nodesAll, Nat.zero_add]
  | cons e es ih => rw [List.cons_append, nodesAll, nodesAll, ih, Nat.add_assoc]

theorem nodesAll_concat (es : List Expr) (e : Expr) :
    nodesAll (es ++ [e]) = nodesAll es + e.nodes := by
  rw [nodesAll_append, nodesAll, nodesAll, Nat.add_zero]

mutual

/-- Source ranges are no nodes. -/
theorem nodes_bare : ∀ e : Expr, e.bare.nodes = e.nodes
  | int _ _ | double _ _ | string _ _ => rfl
  | read _ address => by rw [bare, nodes, nodes, nodesAll_bareAll address]
  | assign _ address right _ => by
    rw [bare, nodes, nodes, nodesAll_bareAll address, nodes_bare right]
  | binary _ _ left right => by rw [bare, nodes, nodes, nodes_bare left, nodes_bare right]
  | list _ elements => by rw [bare, nodes, nodes, nodesAll_bareAll elements]
  | object _ entries => by rw [bare, nodes, nodes, nodesEntries_bareEntries entries]
  | call _ callee arguments => by
    rw [bare, nodes, nodes, nodesAll_bareAll callee, nodesAll_bareAll arguments]

theorem nodesAll_bareAll : ∀ es : List Expr, nodesAll (bareAll es) = nodesAll es
  | [] => rfl
  | e :: es => by rw [bareAll, nodesAll, nodesAll, nodes_bare e, nodesAll_bareAll es]

theorem nodesEntries_bareEntries :
    ∀ ps : List (Expr × Expr), nodesEntries (bareEntries ps) = nodesEntries ps
  | [] => rfl
  | (k, v) :: ps => by
    rw [bareEntries, nodesEntries, nodesEntries, nodes_bare k, nodes_bare v,
      nodesEntries_bareEntries ps]

end

theorem nodesAll_map_bare (es : List Expr) : nodesAll (es.map bare) = nodesAll es := by
  induction es with
  | nil => rfl
  | cons e es ih => rw [List.map_cons, nodesAll, nodesAll, nodes_bare, ih]

/-- The address that a tree reads has fewer nodes than the tree. -/
theorem nodesAll_location_lt (e : Expr) : nodesAll e.location < e.nodes := by
  have hpos := e.nodes_pos
  cases e with
  -- Only a read has an address, and it is a node above it.
  | read span address =>
    rw [location, nodes]
    omega
  | _ => exact hpos

end Expr

namespace Grammar

open ScopeScript.Expr

/-! ## Composed forms -/

/-- A minus sign in front of a number is read into it. In front of anything else it is a
    difference from zero, which is two nodes more. -/
theorem nodes_negated_le (e : Expr) : (negated e).nodes ≤ 2 + e.nodes := by
  cases e with
  -- The sign of a number is no node.
  | int _ _ | double _ _ => exact Nat.le_add_left _ _
  | _ =>
    simp only [negated, nodes]
    omega

/-- A step is an assignment of an operation on what the address reads and one. These are
    four nodes, and the address stands below two of them. -/
theorem nodes_stepped (op : BinaryOp) (address : List Expr) (yieldsOld : Bool) :
    (stepped op address yieldsOld).nodes = 2 * nodesAll address + 4 := by
  simp only [stepped, nodes]
  omega

/-- A plain assignment names its address once. -/
theorem nodes_plain (address : List Expr) (right : Expr) :
    (assigned .plain address right).nodes = nodesAll address + right.nodes + 1 := by
  simp only [assigned, nodes]
  omega

/-- A compound assignment names its address twice: as the target, and as what is read
    for the operation. -/
theorem nodes_compound (op : BinaryOp) (address : List Expr) (right : Expr) :
    (assigned (.compound op) address right).nodes = 2 * nodesAll address + right.nodes + 3 := by
  simp only [assigned, nodes]
  omega

/-- A print statement is a read of a call of the built-in, whose address has two names. -/
theorem nodes_printCall (arguments : List Expr) :
    (printCall arguments).nodes = nodesAll arguments + 4 := by
  simp only [printCall, Builtin.address, nodes, nodesAll]
  omega

end Grammar
end ScopeScript
