/-
  ScopeScript.Proofs.Grammar.Extent

  How far a tree reaches. A parse function reads some of the tokens that are left,
  one after another, and so does every call that it makes. Where it gives a tree, the
  tree begins no later than the first of these tokens and ends no earlier than the last
  one. With what is known of places the range of a statement is that from the first to
  the last token that was read for it.
-/
import ScopeScript.Proofs.Grammar.Places
import ScopeScript.Proofs.Grammar.Productions

namespace ScopeScript

namespace Span

variable {s t u : Span}

theorem Within.antisymm (h : s.Within t) (h' : t.Within s) : s = t := by
  have hstart : s.start = t.start := Nat.le_antisymm h'.start h.start
  have hstop : s.stop = t.stop := Nat.le_antisymm h.stop h'.stop
  cases s
  cases t
  cases hstart
  cases hstop
  rfl

/-- From where one range begins to where another one ends all is in the range around
    both. -/
theorem within_merge (s t : Span) : Within ⟨s.start, t.stop⟩ (s.merge t) :=
  ⟨Nat.min_le_left _ _, Nat.le_max_right _ _⟩

/-- So it is if the ranges are within others. -/
theorem Within.merge {a b c d : Nat} (hs : Within ⟨a, b⟩ s) (ht : Within ⟨c, d⟩ t) :
    Within ⟨a, d⟩ (s.merge t) :=
  ⟨Nat.le_trans (Nat.min_le_left _ _) hs.start, Nat.le_trans ht.stop (Nat.le_max_right _ _)⟩

end Span

namespace Grammar

open ScopeScript.Expr

/-! ## Tokens that are read -/

/-- The one cursor comes to the other by reading tokens. Levels are no tokens, so they do
    not matter here. -/
def Cursor.Leads (c c' : Cursor) : Prop :=
  ∃ used, c.tokens = used ++ c'.tokens ∧ c'.last = lastSpan c.last used

namespace Cursor

variable {c c₁ c₂ c' : Cursor} {t u : Token} {span span' : Span} {rest : List Lexeme}

theorem here_of_tokens (h : c.tokens = ⟨t, span⟩ :: rest) : c.here = span := by
  rw [here, h]

namespace Leads

theorem refl (c : Cursor) : c.Leads c :=
  ⟨[], rfl, rfl⟩

theorem trans (h : c.Leads c₁) (h' : c₁.Leads c') : c.Leads c' := by
  obtain ⟨used, htokens, hlast⟩ := h
  obtain ⟨more, htokens', hlast'⟩ := h'
  refine ⟨used ++ more, ?_, ?_⟩
  · rw [htokens, htokens', List.append_assoc]
  · rw [hlast', hlast, lastSpan_append]

theorem next (htokens : c.tokens = ⟨t, span⟩ :: rest) : c.Leads (c.past span rest) :=
  ⟨[⟨t, span⟩], htokens, rfl⟩

theorem next_two (htokens : c.tokens = ⟨t, span⟩ :: ⟨u, span'⟩ :: rest) :
    c.Leads (c.past span' rest) :=
  ⟨[⟨t, span⟩, ⟨u, span'⟩], htokens, rfl⟩

end Leads

end Cursor

/-! ## Reading on

  Where reading goes on does not depend on what is read, so this is a contract that
  fixes the place where it began. It covers calls that are made on the way too, also by
  a function that fails later. -/

/-- Calls are made behind what was read from `origin` on, and read on from there. -/
def readingOn (origin : Cursor) : Contract Unit where
  before _ k := origin.Leads k.cursor
  after _
    | .expression _, (_, c') | .chain _ _, (_, c') | .operand _ _, (_, c')
    | .chainRest _ _ _, (_, c') | .unary _, (_, c') | .suffixed _, (_, c') | .primary _, (_, c')
    | .statement _, (_, c') => origin.Leads c'
    | .address _ _ _, (_, c') | .items _ _, (_, c') | .printedAfterComma _, (_, c')
    | .printed _, (_, c') => origin.Leads c'
    | .entries _, (_, c') => origin.Leads c'
    | .statements _ _, _ => True
  blames _ := True

/-- The function of a call reads on. -/
abbrev ReadsOn (limit : Nat) (origin : Cursor) (k : Call) : Prop :=
  (script limit k).Keeps (readingOn origin) ((readingOn origin).after () k)

section Scripts

variable {limit : Nat} {origin c : Cursor}

theorem readsOn_expression (hc : origin.Leads c) : ReadsOn limit origin (.expression c) := by
  delta ReadsOn script
  dsimp only
  refine .level trivial fun _ => .asks () hc ?_
  rintro ⟨left, c₁⟩ hleft
  dsimp only
  split
  · next s span rest htokens =>
    split
    · refine .known (fun _ _ => trivial) fun keys _ => ?_
      refine .asks () (hleft.trans (.next htokens)) ?_
      rintro ⟨right, c₂⟩ hright
      exact .pure hright
    · exact .pure hleft
  · exact .pure hleft

theorem readsOn_chain (p : Precedence) (hc : origin.Leads c) :
    ReadsOn limit origin (.chain p c) := by
  delta ReadsOn script
  dsimp only
  refine .asks () hc fun (first, c₁) hfirst => ?_
  exact .asks () hfirst fun (all, c₂) hall => .pure hall

theorem readsOn_operand (p : Precedence) (hc : origin.Leads c) :
    ReadsOn limit origin (.operand p c) := by
  delta ReadsOn script
  dsimp only
  split <;> exact .call () hc fun _ h => h

theorem readsOn_chainRest (p : Precedence) (left : Expr) (hc : origin.Leads c) :
    ReadsOn limit origin (.chainRest p left c) := by
  delta ReadsOn script
  dsimp only
  split
  · next s span rest htokens =>
    split
    · have hnext := hc.trans (.next htokens)
      refine .level trivial fun _ => .asks () hnext ?_
      rintro ⟨right, c₁⟩ hright
      exact .call () hright fun _ h => h
    · exact .pure hc
  · exact .pure hc

theorem readsOn_unary (hc : origin.Leads c) : ReadsOn limit origin (.unary c) := by
  delta ReadsOn script
  dsimp only
  split
  · next s span rest htokens =>
    have hnext := hc.trans (.next htokens)
    split
    · refine .level trivial fun _ => .asks () hnext ?_
      rintro ⟨inner, c₁⟩ hinner
      exact .pure hinner
    · split
      · refine .asks () hnext ?_
        rintro ⟨inner, c₁⟩ hinner
        exact .known (fun _ _ => trivial) fun keys _ => .pure hinner
      · exact .call () hc fun _ h => h
  · exact .call () hc fun _ h => h

theorem readsOn_suffixed (hc : origin.Leads c) : ReadsOn limit origin (.suffixed c) := by
  delta ReadsOn script
  dsimp only
  split
  · next s span rest htokens =>
    refine .asks () (hc.trans (.next htokens)) fun (keys, c₁) hkeys => ?_
    dsimp only
    split
    · next sign signSpan behind hsign =>
      split
      · exact .pure (hkeys.trans (.next hsign))
      · exact .pure hkeys
    · exact .pure hkeys
  · exact .call () hc fun _ h => h

theorem readsOn_address (start : Span) (keys : List Expr) (hc : origin.Leads c) :
    ReadsOn limit origin (.address start keys c) := by
  delta ReadsOn script
  dsimp only
  split
  · next htokens => exact .call () (hc.trans (.next_two htokens)) fun _ h => h
  · exact .throw trivial
  · next htokens =>
    refine .asks () (hc.trans (.next htokens)) fun (index, c₁) hindex => ?_
    refine .eat (fun _ => trivial) fun close behind hclose => ?_
    exact .call () (hindex.trans (.next hclose)) fun _ h => h
  · next htokens =>
    have hnext := hc.trans (.next htokens)
    refine .level trivial fun _ => .asks () hnext fun (arguments, c₁) harguments => ?_
    refine .eat (fun _ => trivial) fun close behind hclose => ?_
    exact .call () (harguments.trans (.next hclose)) fun _ h => h
  · exact .pure hc

theorem readsOn_primary (hc : origin.Leads c) : ReadsOn limit origin (.primary c) := by
  delta ReadsOn script
  dsimp only
  split
  · next htokens => exact .pure (hc.trans (.next htokens))
  · next htokens => exact .pure (hc.trans (.next htokens))
  · next htokens => exact .pure (hc.trans (.next htokens))
  · next htokens =>
    refine .asks () (hc.trans (.next htokens)) fun (inner, c₁) hinner => ?_
    exact .eat (fun _ => trivial) fun close behind hclose => .pure (hinner.trans (.next hclose))
  · next htokens =>
    refine .asks () (hc.trans (.next htokens)) fun (elements, c₁) helements => ?_
    exact .eat (fun _ => trivial) fun close behind hclose => .pure (helements.trans (.next hclose))
  · next htokens =>
    refine .asks () (hc.trans (.next htokens)) fun (members, c₁) hmembers => ?_
    exact .eat (fun _ => trivial) fun close behind hclose => .pure (hmembers.trans (.next hclose))
  · exact .throw trivial

theorem readsOn_items (close : Symbol) (hc : origin.Leads c) :
    ReadsOn limit origin (.items close c) := by
  delta ReadsOn script
  dsimp only
  split
  · exact .pure hc
  refine .asks () hc fun (first, c₁) hfirst => ?_
  dsimp only
  split
  · next htokens =>
    exact .asks () (hfirst.trans (.next htokens)) fun (others, c₂) hothers => .pure hothers
  · exact .pure hfirst

theorem readsOn_entries (hc : origin.Leads c) : ReadsOn limit origin (.entries c) := by
  delta ReadsOn script
  dsimp only
  split
  · exact .pure hc
  refine .asks () hc fun (key, c₁) hkey => .eat (fun _ => trivial) fun colon behind hcolon => ?_
  refine .asks () (hkey.trans (.next hcolon)) fun (value, c₂) hvalue => ?_
  dsimp only
  split
  · next htokens =>
    exact .asks () (hvalue.trans (.next htokens)) fun (others, c₃) hothers => .pure hothers
  · exact .pure hvalue

theorem readsOn_printedAfterComma (hc : origin.Leads c) :
    ReadsOn limit origin (.printedAfterComma c) := by
  delta ReadsOn script
  dsimp only
  split
  · next htokens =>
    refine .asks () (hc.trans (.next htokens)) fun (first, c₁) hfirst => ?_
    exact .asks () hfirst fun (others, c₂) hothers => .pure hothers
  · exact .pure hc

theorem readsOn_printed (hc : origin.Leads c) : ReadsOn limit origin (.printed c) := by
  delta ReadsOn script
  dsimp only
  split
  · exact .pure hc
  refine .asks () hc fun (first, c₁) hfirst => ?_
  exact .asks () hfirst fun (others, c₂) hothers => .pure hothers

theorem readsOn_statement (hc : origin.Leads c) : ReadsOn limit origin (.statement c) := by
  delta ReadsOn script
  dsimp only
  split
  · exact .throw trivial
  · next htokens =>
    refine .asks () (hc.trans (.next htokens)) fun (arguments, c₁) harguments => ?_
    dsimp only
    split
    · exact .pure harguments
    · exact .throw trivial
  · exact .call () hc fun _ h => h

theorem readsOn_statements (found : List Expr) (hc : origin.Leads c) :
    ReadsOn limit origin (.statements found c) := by
  delta ReadsOn script
  dsimp only
  split
  · exact .pure trivial
  · next htokens => exact .call () (hc.trans (.next htokens)) fun _ h => h
  · exact .asks () hc fun (e, c₁) he => .call () he fun _ h => h

end Scripts

theorem readingOn_kept (origin : Cursor) (limit : Nat) : (readingOn origin).Kept limit := by
  intro _ k hk
  cases k with
  | expression c => exact readsOn_expression hk
  | chain p c => exact readsOn_chain p hk
  | operand p c => exact readsOn_operand p hk
  | chainRest p left c => exact readsOn_chainRest p left hk
  | unary c => exact readsOn_unary hk
  | suffixed c => exact readsOn_suffixed hk
  | address start keys c => exact readsOn_address start keys hk
  | primary c => exact readsOn_primary hk
  | items close c => exact readsOn_items close hk
  | entries c => exact readsOn_entries hk
  | printedAfterComma c => exact readsOn_printedAfterComma hk
  | printed c => exact readsOn_printed hk
  | statement c => exact readsOn_statement hk
  | statements found c => exact readsOn_statements found hk

/-- What a call gives stands behind what it has read. -/
theorem Succeeds.leads {limit : Nat} {k : Call} {g : k.Gives} (h : Succeeds limit k g) :
    (readingOn k.cursor).after () k g :=
  ((readingOn_kept k.cursor limit).promises () (.refl k.cursor)).value g h

/-- So do the calls that it makes. -/
theorem leads_of_makes {limit : Nat} {k k' : Call}
    (h : (script limit k).Makes (answers limit) k') : k.cursor.Leads k'.cursor := by
  obtain ⟨_, hleads⟩ :=
    (readingOn_kept k.cursor limit).before_of_makes () (.refl k.cursor) h
  exact hleads

/-! ## Ranges of trees -/

section Forms

variable {left right e : Expr} {j k m n : Nat} {span : Span}

theorem within_operation (op : BinaryOp) (hleft : Span.Within ⟨k, n⟩ left.span)
    (hright : Span.Within ⟨m, j⟩ right.span) :
    Span.Within ⟨k, j⟩ (operation op left right).span :=
  hleft.merge hright

theorem within_assignment (sign : AssignSign) (address : List Expr)
    (hleft : Span.Within ⟨k, n⟩ left.span) (hright : Span.Within ⟨m, j⟩ right.span) :
    Span.Within ⟨k, j⟩ (assignment sign address left.span right).span := by
  cases sign <;> exact hleft.merge hright

theorem within_negation (he : Span.Within ⟨m, n⟩ e.span) :
    Span.Within ⟨span.start, n⟩ (negation span e).span := by
  have hmerge : Span.Within ⟨span.start, n⟩ (span.merge e.span) := (Span.Within.refl span).merge he
  cases e <;> exact hmerge

end Forms

/-- A tree reaches from the first of its tokens to the last. The rest of a chain goes on
    where the chain begins. -/
def Spans : (k : Call) → k.Gives → Prop
  | .expression c, (e, c') | .chain _ c, (e, c') | .operand _ c, (e, c') | .unary c, (e, c')
  | .suffixed c, (e, c') | .primary c, (e, c') | .statement c, (e, c') =>
    Span.Within ⟨c.here.start, c'.last.stop⟩ e.span
  | .chainRest _ left c, (e, c') =>
    ∀ k, Span.Within ⟨k, c.last.stop⟩ left.span → Span.Within ⟨k, c'.last.stop⟩ e.span
  | .address _ _ _, _ | .items _ _, _ | .entries _, _ | .printedAfterComma _, _ | .printed _, _
  | .statements _ _, _ => True

/-- A range from the next token on, whose tokens are known. -/
theorem within_of_tokens {c : Cursor} {t : Token} {span s : Span} {rest : List Lexeme} {j : Nat}
    (htokens : c.tokens = ⟨t, span⟩ :: rest) (h : Span.Within ⟨span.start, j⟩ s) :
    Span.Within ⟨c.here.start, j⟩ s := by
  rw [Cursor.here_of_tokens htokens]
  exact h

theorem spans_of_production {limit : Nat} (k : Call) (g : k.Gives)
    (h : Production limit (fun k g => Succeeds limit k g ∧ Spans k g) k g) : Spans k g := by
  cases h with
  | value _ hleft _ => exact hleft.2
  | assign _ hleft _ _ _ hright => exact within_assignment _ _ hleft.2 hright.2
  | chain hfirst hrest => exact hrest.2 _ hfirst.2
  | tighter _ h | operand _ h | unsigned _ h | primary _ h | statement _ _ h => exact h.2
  | chainMore _ _ _ hright hrest =>
    -- The operation begins with the first part and ends with the operand read now.
    exact fun _ hleft => hrest.2 _ (within_operation _ hleft hright.2)
  | chainEnd _ => exact fun _ hleft => hleft
  | minus htokens _ hinner => exact within_of_tokens htokens (within_negation hinner.2)
  | @step _ _ _ _ span _ _ _ htokens _ hinner _ =>
    exact within_of_tokens htokens ((Span.Within.refl span).merge hinner.2)
  | address htokens _ _ => exact within_of_tokens htokens (Span.within_merge _ _)
  | @addressStep _ _ _ _ signSpan _ _ _ _ _ htokens _ _ _ =>
    exact within_of_tokens htokens ((Span.within_merge _ _).merge (.refl signSpan))
  | int htokens | double htokens | string htokens => exact within_of_tokens htokens (.refl _)
  | parens htokens _ _ =>
    refine within_of_tokens htokens ?_
    rw [span_withSpan]
    exact Span.within_merge _ _
  | list htokens _ _ | object htokens _ _ =>
    exact within_of_tokens htokens (Span.within_merge _ _)
  | print htokens _ _ => exact within_of_tokens htokens (Span.within_merge _ _)
  | _ => trivial

theorem Succeeds.spans {limit : Nat} {k : Call} {g : k.Gives} (h : Succeeds limit k g) :
    Spans k g :=
  h.induct spans_of_production

/-! ## Statements -/

/-- The range of a statement is that from the first to the last of its tokens. -/
theorem span_of_statement {limit size k : Nat} {c c' : Cursor} {e : Expr} (hc : c.Stands size k)
    (h : Parses (statement limit c) e c') :
    e.span = ⟨c.here.start, c'.last.stop⟩ ∧ c'.Stands size c'.last.stop := by
  have hhere : c.Stands size c.here.start := by
    refine ⟨hc.finish, ?_⟩
    cases htokens : c.tokens with
    | nil =>
      have hlt := h.lt
      rw [Cursor.remaining, Cursor.remaining, htokens] at hlt
      exact absurd hlt (Nat.not_lt_zero _)
    | cons t ts =>
      have hspaced := hc.spaced
      rw [htokens] at hspaced
      rw [Cursor.here_of_tokens htokens]
      exact ⟨Nat.le_refl _, hspaced.2⟩
  -- It reaches so far, and what was read from there on fits between these places.
  have hsucceeds : Succeeds limit (.statement c) (e, c') := parses_iff.1 h
  have hwithin : Span.Within ⟨c.here.start, c'.last.stop⟩ e.span := hsucceeds.spans
  have hread : TreeRead size c.here.start e c' :=
    ((places_kept size limit).promises (k := .statement c) _ hhere).value (e, c') hsucceeds
  exact ⟨hread.fits.within.antisymm hwithin, hread.past.stands⟩

end Grammar
end ScopeScript
