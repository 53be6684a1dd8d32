/-
  ScopeScript.Proofs.Grammar.Ranges

  The parser makes no ranges but by merging those of tokens. A property of ranges
  that merging keeps is therefore true of every range in a tree, and of the range
  of an error, if it is true of the tokens and of the end of the source.

  The contract (`ranges`) speaks of cursors too: a parse function is handed tokens
  with the property, in some of them behind one that has been read, and hands on what
  it leaves of them.
-/
import ScopeScript.Proofs.Expr.Everywhere
import ScopeScript.Proofs.Grammar.Contract

namespace ScopeScript

/-- A property of ranges that merging keeps. -/
structure Span.Mergeable where
  holds : Span → Prop
  merge : ∀ {a b : Span}, holds a → holds b → holds (a.merge b)

instance : CoeFun Span.Mergeable fun _ => Span → Prop :=
  ⟨Span.Mergeable.holds⟩

/-- The ranges of all nodes of the tree have a property. -/
abbrev Expr.Ranged (P : Span → Prop) (e : Expr) : Prop :=
  e.Everywhere fun node => P node.span

namespace Grammar

open ScopeScript.Expr

variable {P : Span → Prop}

/-! ## Cursors -/

/-- The tokens that are left have ranges with a property, and so has the end of
    the source. -/
structure Cursor.Ahead (P : Span → Prop) (c : Cursor) : Prop where
  finish : P c.finish
  tokens : ∀ t ∈ c.tokens, P t.span

/-- So has the token read last. -/
structure Cursor.Around (P : Span → Prop) (c : Cursor) : Prop where
  last : P c.last
  ahead : c.Ahead P

/-- Trees were read from ranges with the property. -/
structure Read (P : Span → Prop) (es : List Expr) (next : Cursor) : Prop where
  trees : ∀ e ∈ es, e.Ranged P
  next : next.Around P

namespace Cursor

variable {c : Cursor} {t : Token} {span : Span} {rest : List Lexeme}

theorem Ahead.deeper (h : c.Ahead P) : c.deeper.Ahead P :=
  ⟨h.finish, h.tokens⟩

theorem Ahead.atLevel (h : c.Ahead P) (level : Nat) : (c.atLevel level).Ahead P :=
  ⟨h.finish, h.tokens⟩

theorem Around.atLevel (h : c.Around P) (level : Nat) : (c.atLevel level).Around P :=
  ⟨h.last, h.ahead.atLevel level⟩

/-- The place of a cursor is that of the next token, or the end of the source. -/
theorem Ahead.here (h : c.Ahead P) : P c.here := by
  rw [Cursor.here]
  split
  · exact h.finish
  · next t rest htokens => exact h.tokens t (htokens ▸ List.mem_cons_self)

/-- Behind a token that was ahead, it is the one read last. -/
theorem Ahead.past (h : c.Ahead P) (htokens : c.tokens = ⟨t, span⟩ :: rest) :
    (c.past span rest).Around P := by
  obtain ⟨hspan, hrest⟩ := List.forall_mem_cons.1 (htokens ▸ h.tokens)
  exact ⟨hspan, h.finish, hrest⟩

end Cursor

section Reading

variable {c c₁ : Cursor} {e : Expr} {es fs : List Expr}

theorem Read.nil (h : c.Around P) : Read P [] c :=
  ⟨fun _ he => absurd he List.not_mem_nil, h⟩

/-- One tree read is all trees read. -/
theorem Read.one (h : e.Ranged P) (hc : c.Around P) : Read P [e] c :=
  ⟨List.forall_mem_singleton.2 h, hc⟩

theorem Read.tree (h : Read P [e] c) : e.Ranged P :=
  List.forall_mem_singleton.1 h.trees

/-- What is read on from trees is read with them. -/
theorem Read.append (h : Read P es c₁) (h' : Read P fs c) : Read P (es ++ fs) c :=
  ⟨List.forall_mem_append.2 ⟨h.trees, h'.trees⟩, h'.next⟩

theorem Read.atLevel (h : Read P es c) (level : Nat) : Read P es (c.atLevel level) :=
  ⟨h.trees, h.next.atLevel level⟩

end Reading

/-! ## Composed forms -/

section Forms

variable {e left right : Expr} {address arguments : List Expr} {sign span : Span}

/-- The keys that a tree reads are parts of it. -/
theorem ranged_location (h : e.Ranged P) : ∀ key ∈ e.location, key.Ranged P := by
  cases e with
  | read _ address => exact fun key hkey => h.part hkey
  | _ => exact fun key hkey => absurd hkey List.not_mem_nil

/-- Parentheses change the range of a tree and none in it. -/
theorem ranged_withSpan (h : e.Ranged P) (hspan : P span) : (e.withSpan span).Ranged P := by
  have hparts : (e.withSpan span).parts = e.parts := by cases e <;> rfl
  refine .intro ?_ fun part hpart => h.part (hparts ▸ hpart)
  rwa [span_withSpan]

/-- A step has its own range at all nodes that the parser makes for it. -/
theorem ranged_step (op : BinaryOp) (yieldsOld : Bool) (hspan : P span)
    (haddress : ∀ key ∈ address, key.Ranged P) :
    (step op address span yieldsOld).Ranged P := by
  have hread : (Expr.read span address).Ranged P := .intro hspan haddress
  have hone : (Expr.int span 1).Ranged P := .leaf hspan rfl
  have hvalue : (Expr.binary span op (.read span address) (.int span 1)).Ranged P :=
    .intro hspan (List.forall_mem_cons.2 ⟨hread, List.forall_mem_singleton.2 hone⟩)
  exact .intro hspan (List.forall_mem_cons.2 ⟨hvalue, haddress⟩)

/-- The names of the built-in stand where the sign does. -/
theorem ranged_printing (hsign : P sign) (hspan : P span)
    (harguments : ∀ e ∈ arguments, e.Ranged P) : (printing sign span arguments).Ranged P := by
  have hcallee : ∀ key ∈ Builtin.address "print" sign, key.Ranged P :=
    List.forall_mem_cons.2 ⟨.leaf hsign rfl, List.forall_mem_singleton.2 (.leaf hsign rfl)⟩
  have hcall : (Expr.call span (Builtin.address "print" sign) arguments).Ranged P :=
    .intro hspan (List.forall_mem_append.2 ⟨hcallee, harguments⟩)
  exact .intro hspan (List.forall_mem_singleton.2 hcall)

end Forms

section MergedForms

variable {P : Span.Mergeable} {e left right : Expr} {address : List Expr} {sign span : Span}

/-- An operation stands from its left operand to its right one. -/
theorem ranged_operation (op : BinaryOp) (hleft : left.Ranged P) (hright : right.Ranged P) :
    (operation op left right).Ranged P :=
  .intro (P.merge hleft.here hright.here)
    (List.forall_mem_cons.2 ⟨hleft, List.forall_mem_singleton.2 hright⟩)

/-- A minus sign stands from itself to its tree, and the zero where the sign is. -/
theorem ranged_negation (hsign : P sign) (he : e.Ranged P) : (negation sign e).Ranged P := by
  have hspan : P (sign.merge e.span) := P.merge hsign he.here
  cases e with
  | int _ n => exact .leaf hspan rfl
  | double _ d => exact .leaf hspan rfl
  -- Only a number takes the sign in, and has then its range too.
  | _ =>
    refine .intro hspan (List.forall_mem_cons.2 ⟨?_, List.forall_mem_singleton.2 he⟩)
    exact .leaf hsign rfl

/-- An assignment stands from its target to its right-hand side. What it reads for an
    operator stands where the target does. -/
theorem ranged_assignment (s : AssignSign) (hspan : P span)
    (haddress : ∀ key ∈ address, key.Ranged P) (hright : right.Ranged P) :
    (assignment s address span right).Ranged P := by
  have hwhole : P (span.merge right.span) := P.merge hspan hright.here
  cases s with
  | plain => exact .intro hwhole (List.forall_mem_cons.2 ⟨hright, haddress⟩)
  | compound op =>
    have hread : (Expr.read span address).Ranged P := .intro hspan haddress
    have hvalue : (Expr.binary (span.merge right.span) op (.read span address) right).Ranged P :=
      .intro hwhole (List.forall_mem_cons.2 ⟨hread, List.forall_mem_singleton.2 hright⟩)
    exact .intro hwhole (List.forall_mem_cons.2 ⟨hvalue, haddress⟩)

end MergedForms

/-- The keys of a target are those that its tree reads. -/
theorem ranged_target {use : TargetUse} {e : Expr} {keys : List Expr} (he : e.Ranged P)
    (h : target use e = .ok keys) : ∀ key ∈ keys, key.Ranged P := by
  obtain ⟨-, rfl⟩ := target_eq_ok_iff.1 h
  exact ranged_location he

/-- A bad target is blamed at the tree that was read in its place. -/
theorem span_of_target {use : TargetUse} {e : Expr} {x : ParseError} (he : e.Ranged P)
    (h : target use e = .error x) : P x.span := by
  rw [target.eq_def] at h
  split at h
  · cases h
  · cases h
    exact he.here

/-! ## The contract -/

/-- Calls find tokens with the property ahead, and those that may read nothing find it
    in the token behind them too. So do calls that go on from trees. -/
def ranges (P : Span.Mergeable) : Contract Unit where
  before _
    | .expression c | .chain _ c | .operand _ c | .unary c | .suffixed c | .primary c
    | .statement c => c.Ahead P
    | .items _ c | .entries c | .printedAfterComma c | .printed c => c.Around P
    | .chainRest _ left c => Read P [left] c
    | .address start keys c => P start ∧ Read P keys c
    | .statements found c => c.Ahead P ∧ ∀ e ∈ found, e.Ranged P
  after _
    | .expression _, (e, c') | .chain _ _, (e, c') | .operand _ _, (e, c')
    | .chainRest _ _ _, (e, c') | .unary _, (e, c') | .suffixed _, (e, c') | .primary _, (e, c')
    | .statement _, (e, c') => Read P [e] c'
    | .address _ _ _, (es, c') | .items _ _, (es, c') | .printedAfterComma _, (es, c')
    | .printed _, (es, c') => Read P es c'
    -- Entries are read as their keys and values.
    | .entries _, (entries, c') => Read P (entries.flatMap fun (k, v) => [k, v]) c'
    | .statements _ _, es => ∀ e ∈ es, e.Ranged P
  blames e := P e.span

/-- The function of a call keeps the property. -/
abbrev KeepsRanges (limit : Nat) (P : Span.Mergeable) (k : Call) : Prop :=
  (script limit k).Keeps (ranges P) ((ranges P).after () k)

variable {limit : Nat} {P : Span.Mergeable} {c : Cursor}

/-! ## Expressions -/

theorem ranges_expression (hc : c.Ahead P) : KeepsRanges limit P (.expression c) := by
  delta KeepsRanges script
  dsimp only
  refine .level hc.here fun _ => .asks () hc.deeper ?_
  rintro ⟨left, c₁⟩ hleft
  dsimp only
  split
  · next s span rest htokens =>
    split
    · next sign hsign =>
      have hpast := hleft.next.ahead.past htokens
      -- The target is checked before the right-hand side is read.
      refine .known (fun _ => span_of_target hleft.tree) fun address haddress => ?_
      refine .asks () (hpast.ahead.atLevel _) ?_
      rintro ⟨right, c₂⟩ hright
      refine .pure ?_
      exact .one (ranged_assignment sign hleft.tree.here (ranged_target hleft.tree haddress)
        hright.tree) (hright.next.atLevel _)
    · exact .pure (hleft.atLevel _)
  · exact .pure (hleft.atLevel _)

theorem ranges_chain (p : Precedence) (hc : c.Ahead P) : KeepsRanges limit P (.chain p c) := by
  delta KeepsRanges script
  dsimp only
  refine .asks () hc fun (first, c₁) hfirst => ?_
  exact .asks () hfirst fun (all, c₂) hall => .pure (hall.atLevel _)

theorem ranges_operand (p : Precedence) (hc : c.Ahead P) :
    KeepsRanges limit P (.operand p c) := by
  delta KeepsRanges script
  dsimp only
  split <;> exact .call () hc fun _ h => h

theorem ranges_chainRest {p : Precedence} {left : Expr} (hleft : Read P [left] c) :
    KeepsRanges limit P (.chainRest p left c) := by
  delta KeepsRanges script
  dsimp only
  split
  · next s span rest htokens =>
    split
    · next op hop =>
      have hpast := hleft.next.ahead.past htokens
      refine .level hpast.ahead.here fun _ => ?_
      refine .asks () hpast.ahead.deeper ?_
      rintro ⟨right, c₁⟩ hright
      -- The rest of the chain goes on from the operation on both operands.
      have hboth := Read.one (ranged_operation op hleft.tree hright.tree) hright.next
      exact .call () hboth fun _ h => h
    · exact .pure hleft
  · exact .pure hleft

theorem ranges_unary (hc : c.Ahead P) : KeepsRanges limit P (.unary c) := by
  delta KeepsRanges script
  dsimp only
  split
  · next s span rest htokens =>
    have hpast := hc.past htokens
    split
    · refine .level hpast.ahead.here fun _ => ?_
      refine .asks () hpast.ahead.deeper ?_
      rintro ⟨inner, c₁⟩ hinner
      refine .pure ?_
      exact .one (ranged_negation hpast.last hinner.tree) (hinner.next.atLevel _)
    · split
      · next op hop =>
        refine .asks () hpast.ahead ?_
        rintro ⟨inner, c₁⟩ hinner
        refine .known (fun _ => span_of_target hinner.tree) fun address haddress => .pure ?_
        have hspan : P (span.merge inner.span) := P.merge hpast.last hinner.tree.here
        exact .one (ranged_step op false hspan (ranged_target hinner.tree haddress)) hinner.next
      · exact .call () hc fun _ h => h
  · exact .call () hc fun _ h => h

theorem ranges_suffixed (hc : c.Ahead P) : KeepsRanges limit P (.suffixed c) := by
  delta KeepsRanges script
  dsimp only
  split
  · next s span rest htokens =>
    have hpast := hc.past htokens
    have hname : (Expr.string span s).Ranged P := .leaf hpast.last rfl
    refine .asks () ⟨hpast.last, .one hname hpast⟩ fun (keys, c₁) hkeys => ?_
    -- The whole address stands from its name to the token read last.
    have hwhole : P (span.merge c₁.last) := P.merge hpast.last hkeys.next.last
    have hnext := hkeys.next.atLevel c.level
    have htree : Read P [.read (span.merge c₁.last) keys] (c₁.atLevel c.level) :=
      .one (.intro hwhole hkeys.trees) hnext
    dsimp only
    split
    · next s' sign rest' htokens' =>
      split
      · next op hop =>
        have hstep := hnext.ahead.past htokens'
        exact .pure (.one (ranged_step op true (P.merge hwhole hstep.last) hkeys.trees) hstep)
      · exact .pure htree
    · exact .pure htree
  · exact .call () hc fun _ h => h

theorem ranges_address {start : Span} {keys : List Expr} (hstart : P start) (h : Read P keys c) :
    KeepsRanges limit P (.address start keys c) := by
  delta KeepsRanges script
  dsimp only
  split
  · next dot s span rest htokens =>
    have hpast : (c.past span rest).Around P := (h.next.ahead.past htokens).ahead.past rfl
    have hname : (Expr.string span s).Ranged P := .leaf hpast.last rfl
    exact .call () ⟨hstart, h.append (.one hname hpast)⟩ fun _ h => h
  -- A dot without a name is blamed at what follows it.
  · next span rest _ htokens => exact .throw (h.next.ahead.past htokens).ahead.here
  · next span rest htokens =>
    have hpast := h.next.ahead.past htokens
    refine .asks () hpast.ahead fun (index, c₁) hindex => ?_
    refine .eat (fun _ => hindex.next.ahead.here) fun close rest hclose => ?_
    -- The index is the last key so far.
    have hkeys := h.append (.one hindex.tree (hindex.next.ahead.past hclose))
    exact .call () ⟨hstart, hkeys⟩ fun _ h => h
  · next span rest htokens =>
    have hpast := h.next.ahead.past htokens
    refine .level hpast.ahead.here fun _ => ?_
    refine .asks () ⟨hpast.last, hpast.ahead.deeper⟩ fun (arguments, c₁) harguments => ?_
    refine .eat (fun _ => harguments.next.ahead.here) fun close rest hclose => ?_
    have hclosed := harguments.next.ahead.past hclose
    -- The keys so far and the arguments are the parts of the call.
    have hcall : (Expr.call (start.merge close) keys arguments).Ranged P :=
      .intro (P.merge hstart hclosed.last) (h.append harguments).trees
    exact .call () ⟨hstart, .one hcall hclosed⟩ fun _ h => h
  · exact .pure h

theorem ranges_primary (hc : c.Ahead P) : KeepsRanges limit P (.primary c) := by
  delta KeepsRanges script
  dsimp only
  split
  · next n span rest htokens =>
    exact .pure (.one (.leaf (hc.past htokens).last rfl) (hc.past htokens))
  · next d span rest htokens =>
    exact .pure (.one (.leaf (hc.past htokens).last rfl) (hc.past htokens))
  · next s span rest htokens =>
    exact .pure (.one (.leaf (hc.past htokens).last rfl) (hc.past htokens))
  · next span rest htokens =>
    have hpast := hc.past htokens
    refine .asks () hpast.ahead fun (inner, c₁) hinner => ?_
    refine .eat (fun _ => hinner.next.ahead.here) fun close rest hclose => .pure ?_
    have hclosed := hinner.next.ahead.past hclose
    exact .one (ranged_withSpan hinner.tree (P.merge hpast.last hclosed.last)) hclosed
  · next span rest htokens =>
    have hpast := hc.past htokens
    refine .asks () hpast fun (elements, c₁) helements => ?_
    refine .eat (fun _ => helements.next.ahead.here) fun close rest hclose => .pure ?_
    have hclosed := helements.next.ahead.past hclose
    exact .one (.intro (P.merge hpast.last hclosed.last) helements.trees) hclosed
  · next span rest htokens =>
    have hpast := hc.past htokens
    refine .asks () hpast fun (members, c₁) hmembers => ?_
    refine .eat (fun _ => hmembers.next.ahead.here) fun close rest hclose => .pure ?_
    have hclosed := hmembers.next.ahead.past hclose
    exact .one (.intro (P.merge hpast.last hclosed.last) hmembers.trees) hclosed
  · exact .throw hc.here

theorem ranges_items (close : Symbol) (hc : c.Around P) :
    KeepsRanges limit P (.items close c) := by
  delta KeepsRanges script
  dsimp only
  split
  · exact .pure (.nil hc)
  refine .asks () hc.ahead fun (first, c₁) hfirst => ?_
  dsimp only
  split
  · next span rest htokens =>
    refine .asks () (hfirst.next.ahead.past htokens) fun (others, c₂) hothers => .pure ?_
    exact hfirst.append hothers
  · exact .pure hfirst

theorem ranges_entries (hc : c.Around P) : KeepsRanges limit P (.entries c) := by
  delta KeepsRanges script
  dsimp only
  split
  · exact .pure (.nil hc)
  refine .asks () hc.ahead fun (key, c₁) hkey => ?_
  refine .eat (fun _ => hkey.next.ahead.here) fun colon rest hcolon => ?_
  refine .asks () (hkey.next.ahead.past hcolon).ahead fun (value, c₂) hvalue => ?_
  have hentry := hkey.append hvalue
  dsimp only
  split
  · next span rest htokens =>
    refine .asks () (hvalue.next.ahead.past htokens) fun (others, c₃) hothers => .pure ?_
    exact hentry.append hothers
  · exact .pure hentry

/-! ## Programs -/

theorem ranges_printedAfterComma (hc : c.Around P) :
    KeepsRanges limit P (.printedAfterComma c) := by
  delta KeepsRanges script
  dsimp only
  split
  · next span rest htokens =>
    refine .asks () (hc.ahead.past htokens).ahead fun (first, c₁) hfirst => ?_
    refine .asks () hfirst.next fun (others, c₂) hothers => .pure ?_
    exact hfirst.append hothers
  · exact .pure (.nil hc)

theorem ranges_printed (hc : c.Around P) : KeepsRanges limit P (.printed c) := by
  delta KeepsRanges script
  dsimp only
  split
  · exact .pure (.nil hc)
  refine .asks () hc.ahead fun (first, c₁) hfirst => ?_
  refine .asks () hfirst.next fun (others, c₂) hothers => .pure ?_
  exact hfirst.append hothers

theorem ranges_statement (hc : c.Ahead P) : KeepsRanges limit P (.statement c) := by
  delta KeepsRanges script
  dsimp only
  split
  -- A keyword is blamed itself, and a print statement that does not end where it should.
  · next word span rest htokens => exact .throw (hc.past htokens).last
  · next span rest htokens =>
    have hpast := hc.past htokens
    refine .asks () hpast fun (arguments, c₁) harguments => ?_
    dsimp only
    split
    · have hwhole : P (span.merge c₁.last) := P.merge hpast.last harguments.next.last
      exact .pure (.one (ranged_printing hpast.last hwhole harguments.trees) harguments.next)
    · exact .throw harguments.next.ahead.here
  · exact .call () hc fun _ h => h

theorem ranges_statements {found : List Expr} (hc : c.Ahead P)
    (hfound : ∀ e ∈ found, e.Ranged P) : KeepsRanges limit P (.statements found c) := by
  delta KeepsRanges script
  dsimp only
  split
  -- The statements were found last one first.
  · exact .pure fun e he => hfound e (List.mem_reverse.1 he)
  · next span rest htokens =>
    exact .call () ⟨(hc.past htokens).ahead, hfound⟩ fun _ h => h
  · refine .asks () hc fun (e, c₁) he => ?_
    exact .call () ⟨he.next.ahead, List.forall_mem_cons.2 ⟨he.tree, hfound⟩⟩ fun _ h => h

/-- Every parse function keeps the property. -/
theorem ranges_kept (P : Span.Mergeable) (limit : Nat) : (ranges P).Kept limit := by
  intro _ k hk
  cases k with
  | expression c => exact ranges_expression hk
  | chain p c => exact ranges_chain p hk
  | operand p c => exact ranges_operand p hk
  | chainRest p left c => exact ranges_chainRest hk
  | unary c => exact ranges_unary hk
  | suffixed c => exact ranges_suffixed hk
  | address start keys c => exact ranges_address hk.1 hk.2
  | primary c => exact ranges_primary hk
  | items close c => exact ranges_items close hk
  | entries c => exact ranges_entries hk
  | printedAfterComma c => exact ranges_printedAfterComma hk
  | printed c => exact ranges_printed hk
  | statement c => exact ranges_statement hk
  | statements found c => exact ranges_statements hk.1 hk.2

/-- What merging keeps is true of all ranges in a program if it is true of its
    tokens. If there is no program it is true of the error. -/
theorem ranges_ofLexemes (limit : Nat) {size : Nat} {tokens : List Lexeme} (hend : P ⟨size, size⟩)
    (htokens : ∀ t ∈ tokens, P t.span) :
    Promises (fun p => ∀ e ∈ p.statements, e.Ranged P) (fun e => P e.span)
      (Program.ofLexemes limit size tokens) := by
  have hstart : (Cursor.start size tokens).Ahead P := ⟨hend, htokens⟩
  have hall := (ranges_kept P limit).promises (k := .statements [] (.start size tokens)) ()
    ⟨hstart, fun _ he => absurd he List.not_mem_nil⟩
  exact hall.map fun es hes => hes

end Grammar
end ScopeScript
