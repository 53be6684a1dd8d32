/-
  ScopeScript.Proofs.Session.ErrorRanges

  The range of a runtime error is one of the ranges of the tree. Evaluation makes
  no ranges of its own: it fails at the same one after any change of the others.
-/
import ScopeScript.Proofs.Grammar.Ranges
import ScopeScript.Proofs.Session.Relocation

namespace ScopeScript
namespace Expr

variable {f : Span → Span}

theorem relocateAll_eq_self {es : List Expr} (h : ∀ e ∈ es, e.relocate f = e) :
    relocateAll f es = es := by
  rw [relocateAll_eq_map, List.map_congr_left h, List.map_id']

theorem relocateEntries_eq_self {entries : List (Expr × Expr)}
    (h : ∀ part ∈ (object default entries).parts, part.relocate f = part) :
    relocateEntries f entries = entries := by
  induction entries with
  | nil => rfl
  | cons entry rest ih =>
    obtain ⟨k, v⟩ := entry
    obtain ⟨hk, hv, hrest⟩ := Expr.forall_parts_object_cons.1 h
    rw [relocateEntries, hk, hv, ih hrest]

/-- A tree all of whose ranges stay stays. -/
theorem relocate_eq_self {e : Expr} (h : e.Ranged fun span => f span = span) :
    e.relocate f = e := by
  induction h with
  | @intro e here _ ih =>
    cases e with
    | int span n => exact congrArg (int · n) here
    | double span d => exact congrArg (double · d) here
    | string span text => exact congrArg (string · text) here
    | read span address =>
      have haddress : relocateAll f address = address := relocateAll_eq_self ih
      rw [relocate, show f span = span from here, haddress]
    | assign span address right yieldsOld =>
      obtain ⟨hright, haddress⟩ := List.forall_mem_cons.1 ih
      rw [relocate, show f span = span from here, hright, relocateAll_eq_self haddress]
    | binary span op left right =>
      obtain ⟨hleft, hright⟩ := List.forall_mem_cons.1 ih
      rw [relocate, show f span = span from here, hleft, List.forall_mem_singleton.1 hright]
    | list span elements =>
      have helements : relocateAll f elements = elements := relocateAll_eq_self ih
      rw [relocate, show f span = span from here, helements]
    | object span entries =>
      rw [relocate, show f span = span from here, relocateEntries_eq_self ih]
    | call span callee arguments =>
      obtain ⟨hcallee, harguments⟩ := List.forall_mem_append.1 ih
      rw [relocate, show f span = span from here, relocateAll_eq_self hcallee,
        relocateAll_eq_self harguments]

end Expr

/-- What is true of all ranges of a tree is true of that of its error. -/
theorem range_of_evaluate {P : Span → Prop} {e : Expr} (h : e.Ranged P) {s s' : Session}
    {err : RuntimeError} (herr : evaluate e s = .error err s') {span : Span}
    (hspan : err.span = some span) : P span := by
  classical
  -- A relocation that keeps the ranges with the property and no others.
  let f (t : Span) : Span := if P t then t else ⟨t.start + 1, t.stop⟩
  have hkept (t : Span) : f t = t ↔ P t := by
    by_cases ht : P t
    · exact iff_of_true (if_pos ht) ht
    · refine iff_of_false (fun hft => ?_) ht
      have hstart : t.start + 1 = t.start := by
        simpa only [f, if_neg ht] using congrArg Span.start hft
      exact Nat.succ_ne_self t.start hstart
  have htree : e.relocate f = e := Expr.relocate_eq_self (h.mono fun node => (hkept node.span).2)
  have hrun : (.error err s' : Run Value) = .error (err.relocate f) s' := by
    calc (.error err s' : Run Value) = evaluate (e.relocate f) s := by rw [htree, herr]
      _ = .error (err.relocate f) s' := by rw [evaluate_relocate, herr, Run.relocate]
  injection hrun with herror
  have hplace : some span = (some span).map f := by
    rw [← hspan]
    exact congrArg RuntimeError.span herror
  exact (hkept span).1 (Option.some.inj hplace).symm

end ScopeScript
