/-
  ScopeScript.Proofs.Grammar.Building

  What the parser composes. It makes trees of trees and addresses, and addresses
  of addresses and trees, in a fixed number of ways (`Building`). What all of them
  keep is true of every statement of a program: it is a contract of the parse
  functions.
-/
import ScopeScript.Proofs.Grammar.Contract

namespace ScopeScript
namespace Grammar

/-! ## Ways of composing -/

/-- Properties of trees and of addresses that are kept wherever the parser makes
    one. -/
structure Building (Q : Expr → Prop) (A : List Expr → Prop) : Prop where
  int : ∀ span n, Q (.int span n)
  double : ∀ span d, Q (.double span d)
  string : ∀ span s, Q (.string span s)
  withSpan : ∀ span {e}, Q e → Q (e.withSpan span)
  negation : ∀ sign {e}, Q e → Q (negation sign e)
  operation : ∀ op {left right}, Q left → Q right → Q (operation op left right)
  list : ∀ span {elements}, (∀ e ∈ elements, Q e) → Q (.list span elements)
  object : ∀ span {entries : List (Expr × Expr)},
    (∀ entry ∈ entries, Q entry.1 ∧ Q entry.2) → Q (.object span entries)
  read : ∀ span {address}, A address → Q (.read span address)
  step : ∀ {sign op} span yieldsOld {address}, stepOp? sign = some op → A address →
    Q (step op address span yieldsOld)
  assignment : ∀ sign place {address right}, A address → Q right →
    Q (assignment sign address place right)
  printing : ∀ sign span {arguments}, (∀ e ∈ arguments, Q e) → Q (printing sign span arguments)
  name : ∀ span s, A [.string span s]
  property : ∀ span s {address}, A address → A (address ++ [.string span s])
  index : ∀ {address key}, A address → Q key → A (address ++ [key])
  call : ∀ span {callee arguments}, A callee → (∀ e ∈ arguments, Q e) →
    A [.call span callee arguments]
  /-- An address is taken out of the tree that reads it. -/
  location : ∀ {span key keys}, Q (.read span (key :: keys)) → A (key :: keys)

namespace Building

variable {Q : Expr → Prop} {A : List Expr → Prop} {limit : Nat}

/-- Calls are given trees and addresses with the properties, and give such. -/
def contract (Q : Expr → Prop) (A : List Expr → Prop) : Contract Unit where
  before _
    | .chainRest _ left _ => Q left
    | .address _ keys _ => A keys
    | .statements found _ => ∀ e ∈ found, Q e
    | _ => True
  after _
    | .expression _, (e, _) | .chain _ _, (e, _) | .operand _ _, (e, _) | .chainRest _ _ _, (e, _)
    | .unary _, (e, _) | .suffixed _, (e, _) | .primary _, (e, _) | .statement _, (e, _) => Q e
    | .address _ _ _, (keys, _) => A keys
    | .items _ _, (es, _) | .printedAfterComma _, (es, _) | .printed _, (es, _)
    | .statements _ _, es => ∀ e ∈ es, Q e
    | .entries _, (entries, _) => ∀ entry ∈ entries, Q entry.1 ∧ Q entry.2
  blames _ := True

/-- The function of a call keeps the properties. -/
abbrev Keeps (limit : Nat) (Q : Expr → Prop) (A : List Expr → Prop) (k : Call) : Prop :=
  (script limit k).Keeps (contract Q A) ((contract Q A).after () k)

theorem target_keeps (B : Building Q A) {use : TargetUse} {e : Expr} {keys : List Expr}
    (he : Q e) (h : target use e = .ok keys) : A keys := by
  rw [target.eq_def] at h
  split at h
  · cases h
    exact B.location he
  · cases h

/-! ## Expressions -/

theorem keeps_expression (B : Building Q A) (c : Cursor) : Keeps limit Q A (.expression c) := by
  delta Keeps script
  dsimp only
  refine .level trivial fun _ => .asks () trivial ?_
  rintro ⟨left, c₁⟩ hleft
  dsimp only
  split
  · split
    · next s span rest htokens sign hsign =>
      refine .known (fun _ _ => trivial) fun address haddress => ?_
      refine .asks () trivial ?_
      rintro ⟨right, c₂⟩ hright
      refine .pure ?_
      exact B.assignment sign left.span (B.target_keeps hleft haddress) hright
    · exact .pure hleft
  · exact .pure hleft

theorem keeps_chain (p : Precedence) (c : Cursor) : Keeps limit Q A (.chain p c) := by
  delta Keeps script
  dsimp only
  refine .asks () trivial fun (first, c₁) hfirst => ?_
  exact .asks () hfirst fun (all, c₂) hall => .pure hall

theorem keeps_operand (p : Precedence) (c : Cursor) : Keeps limit Q A (.operand p c) := by
  delta Keeps script
  dsimp only
  split <;> exact .call () trivial fun _ h => h

theorem keeps_chainRest (B : Building Q A) {p : Precedence} {left : Expr} (c : Cursor)
    (hleft : Q left) : Keeps limit Q A (.chainRest p left c) := by
  delta Keeps script
  dsimp only
  split
  · split
    · next s span rest htokens op hop =>
      refine .level trivial fun _ => .asks () trivial ?_
      rintro ⟨right, c₁⟩ hright
      -- The rest of the chain goes on from the operation on both operands.
      exact .call () (B.operation op hleft hright) fun _ h => h
    · exact .pure hleft
  · exact .pure hleft

theorem keeps_unary (B : Building Q A) (c : Cursor) : Keeps limit Q A (.unary c) := by
  delta Keeps script
  dsimp only
  split
  · next s span rest htokens =>
    split
    · refine .level trivial fun _ => .asks () trivial ?_
      rintro ⟨inner, c₁⟩ hinner
      refine .pure ?_
      exact B.negation span hinner
    · split
      · next op hop =>
        refine .asks () trivial ?_
        rintro ⟨inner, c₁⟩ hinner
        refine .known (fun _ _ => trivial) fun address haddress => .pure ?_
        exact B.step _ false hop (B.target_keeps hinner haddress)
      · exact .call () trivial fun _ h => h
  · exact .call () trivial fun _ h => h

theorem keeps_suffixed (B : Building Q A) (c : Cursor) : Keeps limit Q A (.suffixed c) := by
  delta Keeps script
  dsimp only
  split
  · next s span rest htokens =>
    refine .asks () (B.name span s) fun (keys, c₁) hkeys => ?_
    have htree : Q (.read (span.merge c₁.last) keys) := B.read _ hkeys
    dsimp only
    split
    · split
      · next s' sign rest' htokens' op hop => exact .pure (B.step _ true hop hkeys)
      · exact .pure htree
    · exact .pure htree
  · exact .call () trivial fun _ h => h

theorem keeps_address (B : Building Q A) {start : Span} {keys : List Expr} (c : Cursor)
    (hkeys : A keys) : Keeps limit Q A (.address start keys c) := by
  delta Keeps script
  dsimp only
  split
  · next dot s span rest htokens => exact .call () (B.property span s hkeys) fun _ h => h
  · exact .throw trivial
  · refine .asks () trivial fun (index, c₁) hindex => ?_
    refine .eat (fun _ => trivial) fun close rest _ => ?_
    exact .call () (B.index hkeys hindex) fun _ h => h
  · refine .level trivial fun _ => .asks () trivial fun (arguments, c₁) harguments => ?_
    refine .eat (fun _ => trivial) fun close rest _ => ?_
    -- The keys so far are the callee.
    exact .call () (B.call (start.merge close) hkeys harguments) fun _ h => h
  · exact .pure hkeys

theorem keeps_primary (B : Building Q A) (c : Cursor) : Keeps limit Q A (.primary c) := by
  delta Keeps script
  dsimp only
  split
  · exact .pure (B.int _ _)
  · exact .pure (B.double _ _)
  · exact .pure (B.string _ _)
  · refine .asks () trivial fun (inner, c₁) hinner => ?_
    exact .eat (fun _ => trivial) fun close rest _ => .pure (B.withSpan _ hinner)
  · refine .asks () trivial fun (elements, c₁) helements => ?_
    exact .eat (fun _ => trivial) fun close rest _ => .pure (B.list _ helements)
  · refine .asks () trivial fun (members, c₁) hmembers => ?_
    exact .eat (fun _ => trivial) fun close rest _ => .pure (B.object _ hmembers)
  · exact .throw trivial

theorem keeps_items (close : Symbol) (c : Cursor) : Keeps limit Q A (.items close c) := by
  delta Keeps script
  dsimp only
  split
  · exact .pure fun e he => absurd he List.not_mem_nil
  refine .asks () trivial fun (first, c₁) hfirst => ?_
  dsimp only
  split
  · refine .asks () trivial fun (others, c₂) hothers => .pure ?_
    exact List.forall_mem_cons.2 ⟨hfirst, hothers⟩
  · exact .pure (List.forall_mem_singleton.2 hfirst)

theorem keeps_entries (c : Cursor) : Keeps limit Q A (.entries c) := by
  delta Keeps script
  dsimp only
  split
  · exact .pure fun e he => absurd he List.not_mem_nil
  refine .asks () trivial fun (key, c₁) hkey => .eat (fun _ => trivial) fun colon rest _ => ?_
  refine .asks () trivial fun (value, c₂) hvalue => ?_
  dsimp only
  split
  · refine .asks () trivial fun (others, c₃) hothers => .pure ?_
    exact List.forall_mem_cons.2 ⟨⟨hkey, hvalue⟩, hothers⟩
  · exact .pure (List.forall_mem_singleton.2 ⟨hkey, hvalue⟩)

/-! ## Programs -/

theorem keeps_printedAfterComma (c : Cursor) : Keeps limit Q A (.printedAfterComma c) := by
  delta Keeps script
  dsimp only
  split
  · refine .asks () trivial fun (first, c₁) hfirst => ?_
    refine .asks () trivial fun (others, c₂) hothers => .pure ?_
    exact List.forall_mem_cons.2 ⟨hfirst, hothers⟩
  · exact .pure fun e he => absurd he List.not_mem_nil

theorem keeps_printed (c : Cursor) : Keeps limit Q A (.printed c) := by
  delta Keeps script
  dsimp only
  split
  · exact .pure fun e he => absurd he List.not_mem_nil
  refine .asks () trivial fun (first, c₁) hfirst => ?_
  refine .asks () trivial fun (others, c₂) hothers => .pure ?_
  exact List.forall_mem_cons.2 ⟨hfirst, hothers⟩

theorem keeps_statement (B : Building Q A) (c : Cursor) : Keeps limit Q A (.statement c) := by
  delta Keeps script
  dsimp only
  split
  · exact .throw trivial
  · next span rest htokens =>
    refine .asks () trivial fun (arguments, c₁) harguments => ?_
    dsimp only
    split
    · exact .pure (B.printing span _ harguments)
    · exact .throw trivial
  · exact .call () trivial fun _ h => h

theorem keeps_statements {found : List Expr} (c : Cursor) (hfound : ∀ e ∈ found, Q e) :
    Keeps limit Q A (.statements found c) := by
  delta Keeps script
  dsimp only
  split
  · exact .pure fun e he => hfound e (List.mem_reverse.1 he)
  · exact .call () hfound fun _ h => h
  · refine .asks () trivial fun (e, c₁) he => ?_
    exact .call () (List.forall_mem_cons.2 ⟨he, hfound⟩) fun _ h => h

theorem kept (B : Building Q A) (limit : Nat) : (contract Q A).Kept limit := by
  intro _ k hk
  cases k with
  | expression c => exact B.keeps_expression c
  | chain p c => exact keeps_chain p c
  | operand p c => exact keeps_operand p c
  | chainRest p left c => exact B.keeps_chainRest c hk
  | unary c => exact B.keeps_unary c
  | suffixed c => exact B.keeps_suffixed c
  | address start keys c => exact B.keeps_address c hk
  | primary c => exact B.keeps_primary c
  | items close c => exact keeps_items close c
  | entries c => exact keeps_entries c
  | printedAfterComma c => exact keeps_printedAfterComma c
  | printed c => exact keeps_printed c
  | statement c => exact B.keeps_statement c
  | statements found c => exact keeps_statements c hk

/-- What the parser keeps wherever it composes is true of every statement. -/
theorem statement_of_ofLexemes (B : Building Q A) {size : Nat} {tokens : List Lexeme} {p : Program}
    (h : Program.ofLexemes limit size tokens = .ok p) : ∀ e ∈ p.statements, Q e := by
  have hall := (B.kept limit).promises (k := .statements [] (.start size tokens)) ()
    fun e he => absurd he List.not_mem_nil
  rw [Program.ofLexemes] at h
  cases hx : statementsFrom limit (.start size tokens) [] with
  | error e =>
    rw [hx] at h
    cases h
  | ok all =>
    rw [hx] at h
    cases h
    exact hall.value all hx

end Building
end Grammar
end ScopeScript
