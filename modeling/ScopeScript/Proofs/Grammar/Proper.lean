/-
  ScopeScript.Proofs.Grammar.Proper

  Trees that source texts can have. Every address has a key, a call stands only
  where an address begins, and the old value is asked for only by a step, whose
  value is one more or one less than what its own address names.
-/
import ScopeScript.Proofs.Expr.Everywhere
import ScopeScript.Proofs.Grammar.Building

namespace ScopeScript
namespace Expr

/-- The tree is a function call. -/
def IsCall (e : Expr) : Prop :=
  ∃ span callee arguments, e = call span callee arguments

/-- The parts of a tree but for the one that its address begins with. -/
def partsBehindHead : Expr → List Expr
  | read _ address => address.tail
  | assign _ address right _ => right :: address.tail
  | call _ callee arguments => callee.tail ++ arguments
  | e => e.parts

/-- One more or one less than what the address names. -/
inductive StepOf (address : List Expr) : Expr → Prop where
  | intro (span place one : Span) {op : BinaryOp} (hop : op = .add ∨ op = .sub) :
    StepOf address (binary span op (read place address) (int one 1))

/-- A node of a tree that a source text can have. -/
structure Proper (e : Expr) : Prop where
  address_ne_nil : ∀ address, e.address? = some address → address ≠ []
  calls : ∀ part ∈ e.partsBehindHead, ¬ part.IsCall
  steps : ∀ span address value, e = assign span address value true → StepOf address value

/-- The tree stands for a value: it is no call, and its nodes are proper. -/
structure ProperTree (e : Expr) : Prop where
  not_call : ¬ e.IsCall
  everywhere : e.Everywhere Proper

/-- An address with proper keys, of which only the first one may be a call. -/
structure ProperAddress (address : List Expr) : Prop where
  ne_nil : address ≠ []
  tail : ∀ key ∈ address.tail, ¬ key.IsCall
  everywhere : ∀ key ∈ address, key.Everywhere Proper

variable {e : Expr} {address : List Expr}

theorem partsBehindHead_of_address? (h : e.address? = none) : e.partsBehindHead = e.parts := by
  cases e with
  | read | assign | call => cases h
  | _ => rfl

/-- A tree without an address is proper if its parts are. -/
theorem properTree_of_parts (haddress : e.address? = none)
    (hparts : ∀ part ∈ e.parts, ProperTree part) : ProperTree e := by
  have hcalls : e.partsBehindHead = e.parts := partsBehindHead_of_address? haddress
  refine ⟨?_, .intro ⟨fun a h => ?_, fun part hpart => ?_, ?_⟩ fun part hpart => ?_⟩
  · rintro ⟨span, callee, arguments, rfl⟩
    cases haddress
  · rw [haddress] at h
    cases h
  · rw [hcalls] at hpart
    exact (hparts part hpart).not_call
  · rintro span a value rfl
    cases haddress
  · exact (hparts part hpart).everywhere

theorem ProperAddress.singleton (h : e.Everywhere Proper) : ProperAddress [e] :=
  ⟨List.cons_ne_nil e [], fun _ hkey => absurd hkey List.not_mem_nil,
    List.forall_mem_singleton.2 h⟩

theorem ProperAddress.concat (h : ProperAddress address) (he : ProperTree e) :
    ProperAddress (address ++ [e]) := by
  refine ⟨List.append_ne_nil_of_left_ne_nil h.ne_nil _, ?_, ?_⟩
  · rw [List.tail_append_of_ne_nil h.ne_nil]
    exact List.forall_mem_append.2 ⟨h.tail, List.forall_mem_singleton.2 he.not_call⟩
  · exact List.forall_mem_append.2 ⟨h.everywhere, List.forall_mem_singleton.2 he.everywhere⟩

theorem ProperAddress.read (h : ProperAddress address) (span : Span) :
    ProperTree (.read span address) := by
  refine ⟨nofun, .intro ⟨fun a ha => ?_, h.tail, nofun⟩ h.everywhere⟩
  cases ha
  exact h.ne_nil

/-- An assignment is proper if it asks for the old value only as a step does. -/
theorem ProperAddress.assign (h : ProperAddress address) (span : Span) {right : Expr}
    (hright : ProperTree right) {yieldsOld : Bool}
    (hold : yieldsOld = true → StepOf address right) :
    ProperTree (.assign span address right yieldsOld) := by
  refine ⟨nofun, .intro ⟨fun a ha => ?_, ?_, ?_⟩ ?_⟩
  · cases ha
    exact h.ne_nil
  · exact List.forall_mem_cons.2 ⟨hright.not_call, h.tail⟩
  · rintro span' a value heq
    cases heq
    exact hold rfl
  · exact List.forall_mem_cons.2 ⟨hright.everywhere, h.everywhere⟩

/-- The parts of a proper tree without an address are proper trees. -/
theorem ProperTree.parts (h : ProperTree e) (haddress : e.address? = none) :
    ∀ part ∈ e.parts, ProperTree part := by
  have hcalls : e.partsBehindHead = e.parts := partsBehindHead_of_address? haddress
  intro part hpart
  exact ⟨h.everywhere.here.calls part (hcalls ▸ hpart), h.everywhere.part hpart⟩

theorem ProperTree.readAddress {span : Span} (h : ProperTree (.read span address)) :
    ProperAddress address :=
  ⟨h.everywhere.here.address_ne_nil address rfl, h.everywhere.here.calls,
    fun _ hkey => h.everywhere.part hkey⟩

theorem ProperTree.target {span : Span} {right : Expr} {yieldsOld : Bool}
    (h : ProperTree (.assign span address right yieldsOld)) :
    ProperAddress address ∧ ProperTree right := by
  obtain ⟨hright, htail⟩ := List.forall_mem_cons.1 h.everywhere.here.calls
  refine ⟨⟨h.everywhere.here.address_ne_nil address rfl, htail, fun key hkey => ?_⟩, hright, ?_⟩
  · exact h.everywhere.part (List.mem_cons_of_mem _ hkey)
  · exact h.everywhere.part List.mem_cons_self

theorem properTree_int (span : Span) (n : Int32) : ProperTree (.int span n) :=
  properTree_of_parts rfl fun _ hpart => absurd hpart List.not_mem_nil

theorem properTree_string (span : Span) (s : String) : ProperTree (.string span s) :=
  properTree_of_parts rfl fun _ hpart => absurd hpart List.not_mem_nil

theorem properTree_binary {left right : Expr} (span : Span) (op : BinaryOp)
    (hleft : ProperTree left) (hright : ProperTree right) :
    ProperTree (.binary span op left right) :=
  properTree_of_parts rfl
    (List.forall_mem_cons.2 ⟨hleft, List.forall_mem_singleton.2 hright⟩)

end Expr

namespace Grammar

open ScopeScript.Expr

theorem stepOp?_eq_add_or_sub {sign : Symbol} {op : BinaryOp} (h : stepOp? sign = some op) :
    op = .add ∨ op = .sub := by
  cases sign <;> cases h
  · exact .inl rfl
  · exact .inr rfl

theorem properTree_withSpan (span : Span) {e : Expr} (h : ProperTree e) :
    ProperTree (e.withSpan span) := by
  cases e with
  | int _ n => exact properTree_int span n
  | double _ d => exact properTree_of_parts rfl fun _ hpart => absurd hpart List.not_mem_nil
  | string _ s => exact properTree_string span s
  | read _ address => exact h.readAddress.read span
  | assign _ address right yieldsOld =>
    obtain ⟨haddress, hright⟩ := h.target
    refine haddress.assign span hright fun hold => ?_
    subst hold
    exact h.everywhere.here.steps _ _ _ rfl
  | binary _ op left right => exact properTree_of_parts rfl (h.parts rfl)
  | list _ elements => exact properTree_of_parts rfl (h.parts rfl)
  | object _ entries => exact properTree_of_parts rfl (h.parts rfl)
  | call _ callee arguments => exact absurd ⟨_, _, _, rfl⟩ h.not_call

theorem properTree_negation (sign : Span) {e : Expr} (h : ProperTree e) :
    ProperTree (negation sign e) := by
  cases e with
  | int _ n => exact properTree_int _ _
  | double _ d => exact properTree_of_parts rfl fun _ hpart => absurd hpart List.not_mem_nil
  | _ => exact properTree_binary _ _ (properTree_int sign 0) h

theorem properTree_step {sign : Symbol} {op : BinaryOp} {address : List Expr} (span : Span)
    (yieldsOld : Bool) (hop : stepOp? sign = some op) (h : ProperAddress address) :
    ProperTree (step op address span yieldsOld) := by
  have hvalue : ProperTree (.binary span op (.read span address) (.int span 1)) :=
    properTree_binary span op (h.read span) (properTree_int span 1)
  exact h.assign span hvalue fun _ => .intro span span span (stepOp?_eq_add_or_sub hop)

theorem properTree_assignment (sign : AssignSign) (place : Span) {address : List Expr}
    {right : Expr} (h : ProperAddress address) (hright : ProperTree right) :
    ProperTree (assignment sign address place right) := by
  cases sign with
  | plain => exact h.assign _ hright nofun
  | compound op => exact h.assign _ (properTree_binary _ op (h.read place) hright) nofun

theorem properAddress_call (span : Span) {callee arguments : List Expr}
    (hcallee : ProperAddress callee) (harguments : ∀ e ∈ arguments, ProperTree e) :
    ProperAddress [.call span callee arguments] := by
  refine .singleton (.intro ⟨fun a ha => ?_, ?_, nofun⟩ ?_)
  · cases ha
    exact hcallee.ne_nil
  · exact List.forall_mem_append.2 ⟨hcallee.tail, fun e he => (harguments e he).not_call⟩
  · exact List.forall_mem_append.2 ⟨hcallee.everywhere, fun e he => (harguments e he).everywhere⟩

/-- A print statement reads what a call of a built-in gives. -/
theorem properTree_printing (sign span : Span) {arguments : List Expr}
    (h : ∀ e ∈ arguments, ProperTree e) : ProperTree (printing sign span arguments) := by
  have hroot : ProperAddress [.string sign Builtin.root] :=
    .singleton (properTree_string sign _).everywhere
  have hname : ProperAddress (Builtin.address "print" sign) :=
    hroot.concat (properTree_string sign "print")
  exact (properAddress_call span hname h).read span

/-- All trees that the parser makes are proper. -/
theorem building_proper : Building ProperTree ProperAddress where
  int := properTree_int
  double _ _ := properTree_of_parts rfl fun _ hpart => absurd hpart List.not_mem_nil
  string := properTree_string
  withSpan span _ := properTree_withSpan span
  negation sign _ := properTree_negation sign
  operation op _ _ := properTree_binary _ op
  list _ _ h := properTree_of_parts rfl h
  object _ _ h := properTree_of_parts rfl fun part hpart => by
    obtain ⟨⟨k, v⟩, hentry, hpart⟩ := List.mem_flatMap.1 hpart
    obtain ⟨hk, hv⟩ := h _ hentry
    rcases List.mem_cons.1 hpart with rfl | hpart
    · exact hk
    · exact List.mem_singleton.1 hpart ▸ hv
  read span _ h := h.read span
  step span yieldsOld _ := properTree_step span yieldsOld
  assignment sign place _ _ := properTree_assignment sign place
  printing sign span _ := properTree_printing sign span
  name span s := .singleton (properTree_string span s).everywhere
  property span s _ h := h.concat (properTree_string span s)
  index h hkey := h.concat hkey
  call span _ _ := properAddress_call span
  location h := h.readAddress

end Grammar
end ScopeScript
