/-
  ScopeScript.Proofs.Expr.Everywhere

  What is true of every node of a tree. The parts of a tree are smaller than the
  tree, so what follows for a tree from its parts is true of all trees
  (`parts_induction`).
-/
import ScopeScript.Proofs.Expr.Places

namespace ScopeScript
namespace Expr

/-- Every node of the tree has a property, the tree itself included. -/
inductive Everywhere (P : Expr → Prop) : Expr → Prop where
  | intro {e : Expr} (here : P e) (parts : ∀ part ∈ e.parts, part.Everywhere P) : Everywhere P e

variable {P Q : Expr → Prop} {e child : Expr}

/-- The parts of an object are the keys and values of its entries. -/
theorem forall_parts_object_cons {span : Span} {k v : Expr} {rest : List (Expr × Expr)} :
    (∀ part ∈ (object span ((k, v) :: rest)).parts, P part) ↔
      P k ∧ P v ∧ ∀ part ∈ (object span rest).parts, P part := by
  have hparts : (object span ((k, v) :: rest)).parts = k :: v :: (object span rest).parts := rfl
  rw [hparts, List.forall_mem_cons, List.forall_mem_cons]

theorem everywhere_iff : e.Everywhere P ↔ P e ∧ ∀ part ∈ e.parts, part.Everywhere P := by
  constructor
  · rintro ⟨here, parts⟩
    exact ⟨here, parts⟩
  · rintro ⟨here, parts⟩
    exact ⟨here, parts⟩

theorem Everywhere.here (h : e.Everywhere P) : P e :=
  (everywhere_iff.1 h).1

theorem Everywhere.part (h : e.Everywhere P) (hchild : child ∈ e.parts) : child.Everywhere P :=
  (everywhere_iff.1 h).2 child hchild

/-- In a tree without parts there is only its own node. -/
theorem Everywhere.leaf (h : P e) (hparts : e.parts = []) : e.Everywhere P :=
  .intro h fun _ hpart => absurd (hparts ▸ hpart) List.not_mem_nil

theorem sizeOf_lt_of_mem_parts (h : child ∈ e.parts) : sizeOf child < sizeOf e := by
  cases e with
  | int _ _ | double _ _ | string _ _ => cases h
  | read span address =>
    have hmem : child ∈ address := h
    have hlt := List.sizeOf_lt_of_mem hmem
    simp only [read.sizeOf_spec]
    omega
  | assign span address right yieldsOld =>
    simp only [assign.sizeOf_spec]
    rcases List.mem_cons.1 h with rfl | h
    · omega
    · have hlt := List.sizeOf_lt_of_mem h
      omega
  | binary span op left right =>
    simp only [binary.sizeOf_spec]
    rcases List.mem_cons.1 h with rfl | h
    · omega
    · obtain rfl := List.mem_singleton.1 h
      omega
  | list span elements =>
    have hmem : child ∈ elements := h
    have hlt := List.sizeOf_lt_of_mem hmem
    simp only [list.sizeOf_spec]
    omega
  | object span entries =>
    obtain ⟨⟨k, v⟩, hmem, hpart⟩ := List.mem_flatMap.1 h
    have hlt := List.sizeOf_lt_of_mem hmem
    simp only [Prod.mk.sizeOf_spec] at hlt
    simp only [object.sizeOf_spec]
    rcases List.mem_cons.1 hpart with rfl | hpart
    · omega
    · obtain rfl := List.mem_singleton.1 hpart
      omega
  | call span callee arguments =>
    simp only [call.sizeOf_spec]
    rcases List.mem_append.1 h with h | h
    · have hlt := List.sizeOf_lt_of_mem h
      omega
    · have hlt := List.sizeOf_lt_of_mem h
      omega

/-- What is true of a tree if it is true of its parts is true of every tree. -/
@[elab_as_elim]
theorem parts_induction {motive : Expr → Prop}
    (step : ∀ e : Expr, (∀ part ∈ e.parts, motive part) → motive e) (e : Expr) : motive e :=
  step e fun part _hpart => parts_induction step part
termination_by sizeOf e
decreasing_by exact sizeOf_lt_of_mem_parts _hpart

theorem Everywhere.mono (h : e.Everywhere P) (hPQ : ∀ n, P n → Q n) : e.Everywhere Q := by
  induction h with
  | intro here _ ih => exact .intro (hPQ _ here) ih

/-- Two properties are true of every node if their conjunction is. -/
theorem everywhere_and :
    (e.Everywhere fun n => P n ∧ Q n) ↔ e.Everywhere P ∧ e.Everywhere Q := by
  constructor
  · intro h
    exact ⟨h.mono fun _ => And.left, h.mono fun _ => And.right⟩
  · rintro ⟨hP, hQ⟩
    induction hP with
    | intro here _ ih =>
      exact .intro ⟨here, hQ.here⟩ fun part hpart => ih part hpart (hQ.part hpart)

end Expr
end ScopeScript
