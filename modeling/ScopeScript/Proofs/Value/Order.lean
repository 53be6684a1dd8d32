/-
  ScopeScript.Proofs.Value.Order

  The order in which the entries of an object are written. Keys are ordered
  weakly: two keys of which neither precedes the other keep the order in which
  they were inserted. So entries in order are a permutation of the entries, and
  putting them in order again changes nothing.
-/
import ScopeScript.Value.Text
import ScopeScript.Proofs.Bindings

namespace ScopeScript
namespace Primitive

/-- Of two keys at most one precedes the other. -/
theorem precedes_asymm {a b : Primitive} (h : a.precedes b = true) : b.precedes a = false := by
  cases a with
  | int m =>
    cases b with
    | int n =>
      simp only [precedes, decide_eq_true_eq, decide_eq_false_iff_not] at h ⊢
      omega
    | double d => rfl
    | string s => rfl
  | double d =>
    cases b with
    | int n => cases h
    | double d' =>
      simp only [precedes, decide_eq_true_eq, decide_eq_false_iff_not] at h ⊢
      omega
    | string s => rfl
  | string s =>
    cases b with
    | int n => cases h
    | double d => cases h
    | string t =>
      simp only [precedes, decide_eq_true_eq, decide_eq_false_iff_not] at h ⊢
      exact String.lt_asymm h

/-- A key that does not come before a second one, which does not come before a
    third one, does not come before that. -/
theorem not_precedes_trans {a b c : Primitive} (hba : b.precedes a = false)
    (hcb : c.precedes b = false) : c.precedes a = false := by
  cases a with
  | int m =>
    cases c with
    | int n =>
      cases b with
      | int k =>
        simp only [precedes, decide_eq_false_iff_not] at hba hcb ⊢
        omega
      | double d => cases hcb
      | string s => cases hcb
    | double d => rfl
    | string s => rfl
  | double d =>
    cases c with
    | int n =>
      cases b with
      | int k => cases hba
      | double d' => cases hcb
      | string s => cases hcb
    | double d' =>
      cases b with
      | int k => cases hba
      | double d'' =>
        simp only [precedes, decide_eq_false_iff_not] at hba hcb ⊢
        omega
      | string s => cases hcb
    | string s => rfl
  | string s =>
    cases c with
    | int n =>
      cases b with
      | int k => cases hba
      | double d => cases hba
      | string t => cases hcb
    | double d =>
      cases b with
      | int k => cases hba
      | double d' => cases hba
      | string t => cases hcb
    | string t =>
      cases b with
      | int k => cases hba
      | double d => cases hba
      | string u =>
        simp only [precedes, decide_eq_false_iff_not, String.not_lt] at hba hcb ⊢
        exact String.le_trans hba hcb

end Primitive

namespace Object

variable {α β : Type}

theorem inOrder_perm (ps : List (Primitive × α)) : (inOrder ps).Perm ps :=
  List.mergeSort_perm ps _

@[simp] theorem mem_inOrder {p : Primitive × α} {ps : List (Primitive × α)} :
    p ∈ inOrder ps ↔ p ∈ ps :=
  (inOrder_perm ps).mem_iff

/-- Entries are put in order by their keys alone. -/
theorem inOrder_mapValues (f : α → β) (ps : List (Primitive × α)) :
    inOrder (Bindings.mapValues f ps) = Bindings.mapValues f (inOrder ps) := by
  rw [inOrder, inOrder, Bindings.mapValues, Bindings.mapValues]
  refine (List.map_mergeSort ?_).symm
  intro a _ b _
  rfl

/-- No key in order precedes one that is written before it. -/
theorem pairwise_inOrder (ps : List (Primitive × α)) :
    (inOrder ps).Pairwise fun p q => (!q.1.precedes p.1) = true := by
  refine List.pairwise_mergeSort ?_ ?_ ps
  · intro a b c hab hbc
    simp only [Bool.not_eq_true'] at hab hbc ⊢
    exact Primitive.not_precedes_trans hab hbc
  · intro a b
    cases h : b.1.precedes a.1 with
    | false => rfl
    | true => rw [Primitive.precedes_asymm h]; rfl

/-- Entries in order stay as they are. -/
theorem inOrder_inOrder (ps : List (Primitive × α)) : inOrder (inOrder ps) = inOrder ps :=
  List.mergeSort_of_pairwise (pairwise_inOrder ps)

end Object
end ScopeScript
