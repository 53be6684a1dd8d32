/-
  ScopeScript.Proofs.Grammar.Progress

  Parsing ends on every input. A parse function that succeeds has read a token, and
  never reads beyond the last one. So every loop of the grammar moves on in each of its
  iterations, no call can go on making others for ever, and how deep calls may nest
  is bounded by the tokens that are left (`within_eq_outcome`).

  Positions count tokens from the start of the whole list, as `Cursor.At` tells.
-/
import Mathlib.Logic.Relation
import ScopeScript.Proofs.Grammar.Extent

namespace ScopeScript
namespace Grammar

/-! ## Positions -/

/-- The cursor is behind the first `i` of all tokens. Before the first one there is only
    `before` to have been read. -/
structure Cursor.At (tokens : List Lexeme) (before : Span) (c : Cursor) (i : Nat) : Prop where
  le_length : i ≤ tokens.length
  tokens_eq : c.tokens = tokens.drop i
  last_eq : c.last = lastSpan before (tokens.take i)

section Positions

variable {tokens : List Lexeme} {before : Span} {c c' : Cursor} {i j : Nat}

namespace Cursor

theorem At.start (size : Nat) (tokens : List Lexeme) :
    (Cursor.start size tokens).At tokens ⟨size, size⟩ 0 :=
  ⟨Nat.zero_le _, rfl, rfl⟩

theorem At.remaining (h : c.At tokens before i) : c.remaining = tokens.length - i := by
  rw [Cursor.remaining, h.tokens_eq, List.length_drop]

theorem At.leads (h : c.At tokens before i) (hleads : c.Leads c') :
    ∃ j, i ≤ j ∧ c'.At tokens before j := by
  obtain ⟨used, hused, hlast⟩ := hleads
  -- What was read on the way stands in the whole list from position `i` on.
  have htokens : tokens.drop i = used ++ c'.tokens := h.tokens_eq.symm.trans hused
  have hlength : used.length ≤ tokens.length - i := by
    rw [← List.length_drop, htokens, List.length_append]
    exact Nat.le_add_right _ _
  have htake : tokens.take (i + used.length) = tokens.take i ++ used := by
    rw [List.take_add, htokens, List.take_left]
  refine ⟨i + used.length, Nat.le_add_right _ _, ?_, ?_, ?_⟩
  · have hle := h.le_length
    omega
  · rw [← List.drop_drop, htokens, List.drop_left]
  · rw [htake, lastSpan_append, ← h.last_eq, hlast]

/-- With fewer tokens left the position is further on. -/
theorem At.moves (h : c.At tokens before i) (hleads : c.Leads c')
    (hlt : c'.remaining < c.remaining) : ∃ j, i < j ∧ c'.At tokens before j := by
  obtain ⟨j, -, hj⟩ := h.leads hleads
  rw [h.remaining, hj.remaining] at hlt
  exact ⟨j, by omega, hj⟩

theorem At.of_tokens_eq_nil (h : c.At tokens before i) (hnil : c.tokens = []) :
    i = tokens.length := by
  have hle := h.le_length
  have hdrop := List.drop_eq_nil_iff.1 (h.tokens_eq.symm.trans hnil)
  omega

end Cursor

end Positions

/-! ## Functions -/

section Functions

variable (limit : Nat) (tokens : List Lexeme) (before : Span)

/-- Where the function succeeds it has read at least one of the tokens. -/
def Advances {α : Type} (f : (c : Cursor) → Except ParseError (Parsed c α)) : Prop :=
  ∀ c i, c.At tokens before i → ∀ a c', Parses (f c) a c' → ∃ j, i < j ∧ c'.At tokens before j

/-- Where the function succeeds it has not gone back. -/
def NeverGoesBack {α : Type} (f : (c : Cursor) → Except ParseError (Reached c α)) : Prop :=
  ∀ c i, c.At tokens before i → ∀ a c', Reaches (f c) a c' → ∃ j, i ≤ j ∧ c'.At tokens before j

/-- How all parse functions move. Lists, objects and parentheses are read by `primary`,
    and print statements by `statement`. -/
structure MovesOn : Prop where
  eat (sign : Symbol) : Advances tokens before fun c => c.eat sign
  expression : Advances tokens before (expression limit)
  chain (p : Precedence) : Advances tokens before (chain limit p)
  operand (p : Precedence) : Advances tokens before (operand limit p)
  unary : Advances tokens before (unary limit)
  suffixed : Advances tokens before (suffixed limit)
  primary : Advances tokens before (primary limit)
  statement : Advances tokens before (statement limit)
  /-- An address with its name. -/
  named : ∀ (c : Cursor) i, c.At tokens before i →
    ∀ s span rest, c.tokens = ⟨.name s, span⟩ :: rest →
    ∀ start keys all c', Reaches (address limit start keys (c.past span rest)) all c' →
      ∃ j, i < j ∧ c'.At tokens before j
  address (start : Span) (keys : List Expr) :
    NeverGoesBack tokens before (address limit start keys)
  chainRest (p : Precedence) (left : Expr) :
    NeverGoesBack tokens before (chainRest limit p left)
  items (close : Symbol) : NeverGoesBack tokens before (items limit close)
  entries : NeverGoesBack tokens before (entries limit)
  printed : NeverGoesBack tokens before (printed limit)
  printedAfterComma : NeverGoesBack tokens before (printedAfterComma limit)

variable {limit tokens before}

theorem advances_of_leads {α : Type} {f : (c : Cursor) → Except ParseError (Parsed c α)}
    (h : ∀ c a c', (f c).map Parsed.plain = .ok (a, c') → c.Leads c') :
    Advances tokens before f :=
  fun c _ hc a c' hparses => hc.moves (h c a c' (parses_iff.1 hparses)) hparses.lt

theorem neverGoesBack_of_leads {α : Type} {f : (c : Cursor) → Except ParseError (Reached c α)}
    (h : ∀ c a c', (f c).map Reached.plain = .ok (a, c') → c.Leads c') :
    NeverGoesBack tokens before f :=
  fun c _ hc a c' hreaches => hc.leads (h c a c' (reaches_iff.1 hreaches))

variable (limit tokens before)

theorem movesOn : MovesOn limit tokens before where
  eat sign c i hc span c' h := by
    obtain ⟨rest, htokens, rfl⟩ := Cursor.parses_eat_iff.1 h
    exact hc.moves (.next htokens) (Cursor.past_lt span htokens)
  expression := advances_of_leads fun c _ _ h => Succeeds.leads (k := .expression c) h
  chain p := advances_of_leads fun c _ _ h => Succeeds.leads (k := .chain p c) h
  operand p := advances_of_leads fun c _ _ h => Succeeds.leads (k := .operand p c) h
  unary := advances_of_leads fun c _ _ h => Succeeds.leads (k := .unary c) h
  suffixed := advances_of_leads fun c _ _ h => Succeeds.leads (k := .suffixed c) h
  primary := advances_of_leads fun c _ _ h => Succeeds.leads (k := .primary c) h
  statement := advances_of_leads fun c _ _ h => Succeeds.leads (k := .statement c) h
  named c i hc s span rest htokens start keys all c' h := by
    have hleads : (c.past span rest).Leads c' :=
      Succeeds.leads (k := .address start keys (c.past span rest)) (reaches_iff.1 h)
    refine hc.moves ((Cursor.Leads.next htokens).trans hleads) ?_
    exact Nat.lt_of_le_of_lt h.le (Cursor.past_lt span htokens)
  address start keys := neverGoesBack_of_leads fun c _ _ h =>
    Succeeds.leads (k := .address start keys c) h
  chainRest p left := neverGoesBack_of_leads fun c _ _ h =>
    Succeeds.leads (k := .chainRest p left c) h
  items close := neverGoesBack_of_leads fun c _ _ h => Succeeds.leads (k := .items close c) h
  entries := neverGoesBack_of_leads fun c _ _ h => Succeeds.leads (k := .entries c) h
  printed := neverGoesBack_of_leads fun c _ _ h => Succeeds.leads (k := .printed c) h
  printedAfterComma := neverGoesBack_of_leads fun c _ _ h =>
    Succeeds.leads (k := .printedAfterComma c) h

end Functions

/-! ## Calls of calls -/

/-- The one call makes the other, behind what it has made before. -/
def Calls (limit : Nat) (k k' : Call) : Prop :=
  (script limit k).Makes (answers limit) k'

/-- Two calls of the same loop. A loop of the grammar is a function that goes on by a call
    of itself. -/
inductive Call.SameLoop : Call → Call → Prop where
  | chainRest (p : Precedence) (left left' : Expr) (c c' : Cursor) :
    SameLoop (.chainRest p left c) (.chainRest p left' c')
  | address (start : Span) (keys keys' : List Expr) (c c' : Cursor) :
    SameLoop (.address start keys c) (.address start keys' c')
  | items (close : Symbol) (c c' : Cursor) : SameLoop (.items close c) (.items close c')
  | entries (c c' : Cursor) : SameLoop (.entries c) (.entries c')
  | printedAfterComma (c c' : Cursor) : SameLoop (.printedAfterComma c) (.printedAfterComma c')
  | statements (found found' : List Expr) (c c' : Cursor) :
    SameLoop (.statements found c) (.statements found' c')

/-- One iteration of a loop, from the call at its start to the one behind it. -/
structure Iterates (limit : Nat) (k k' : Call) : Prop where
  calls : Calls limit k k'
  same : k.SameLoop k'

section Calling

variable {limit n : Nat} {k k' : Call}

theorem Call.SameLoop.rank_eq (h : k.SameLoop k') : k'.rank = k.rank := by
  cases h <;> rfl

theorem Calls.leads (h : Calls limit k k') : k.cursor.Leads k'.cursor :=
  leads_of_makes h

/-- And it has less left to do. -/
theorem Calls.weight_lt (h : Calls limit k k') : k'.weight < k.weight :=
  (unfolds limit k).makes k' h

/-- The recursion is well-founded. -/
theorem wellFounded_calls (limit : Nat) : WellFounded fun k' k => Calls limit k k' :=
  Subrelation.wf (fun h => h.weight_lt) (measure Call.weight).wf

/-- A call begins no further back than the one that makes it, and at the same place only
    functions of a higher rank call others. -/
theorem Calls.moves {tokens : List Lexeme} {before : Span} {i : Nat} (h : Calls limit k k')
    (hk : k.cursor.At tokens before i) :
    ∃ j, i ≤ j ∧ k'.cursor.At tokens before j ∧ (i = j → k'.rank < k.rank) := by
  have hweight := h.weight_lt
  obtain ⟨j, hij, hj⟩ := hk.leads h.leads
  refine ⟨j, hij, hj, ?_⟩
  -- At one position the same tokens are left, so the ranks make the difference.
  rintro rfl
  rw [Call.weight, Call.weight, Cursor.weight, Cursor.weight, hk.remaining, hj.remaining] at hweight
  exact Nat.add_lt_add_iff_left.1 hweight

/-- So each iteration of a loop reads on. -/
theorem Iterates.moves {tokens : List Lexeme} {before : Span} {i : Nat}
    (h : Iterates limit k k') (hk : k.cursor.At tokens before i) :
    ∃ j, i < j ∧ k'.cursor.At tokens before j := by
  obtain ⟨j, hij, hj, hrank⟩ := h.calls.moves hk
  have hne : i ≠ j := fun heq => absurd (hrank heq) (h.same.rank_eq ▸ Nat.lt_irrefl _)
  exact ⟨j, Nat.lt_of_le_of_ne hij hne, hj⟩

/-! ## Depth -/

/-- What calls come to that nest at most so deep. Where a deeper one is needed there is no
    answer. -/
def within (limit : Nat) : Nat → Answers
  | 0, _ => none
  | n + 1, k => (script limit k).run (within limit n)

theorem within_of_weight_lt (h : k.weight < n) : within limit n k = some (outcome limit k) := by
  induction n generalizing k with
  | zero => exact absurd h (Nat.not_lt_zero _)
  | succ n ih =>
    obtain ⟨hrun, hmakes⟩ := unfolds limit k
    -- All calls that are made weigh less, so they are answered one level further in.
    have hanswers : ∀ k', (script limit k).Makes (answers limit) k' →
        within limit n k' = answers limit k' := by
      intro k' hk'
      have hlt := hmakes k' hk'
      exact ih (by omega)
    rw [within, Script.run_congr hanswers, hrun]

/-- Sixteen nested calls for each token that is left, and as many for the end, are always
    enough. -/
theorem within_eq_outcome (k : Call) (h : 16 * (k.cursor.remaining + 1) ≤ n) :
    within limit n k = some (outcome limit k) := by
  refine within_of_weight_lt ?_
  have hrank := k.rank_lt
  unfold Call.weight Cursor.weight
  omega

end Calling

/-! ## Programs -/

section Programs

variable {limit : Nat}

/-- A semicolon is passed in one iteration. -/
theorem iterates_semicolon {c : Cursor} {span : Span} {rest : List Lexeme} (found : List Expr)
    (htokens : c.tokens = ⟨.symbol .semicolon, span⟩ :: rest) :
    Iterates limit (.statements found c) (.statements found (c.past span rest)) := by
  obtain ⟨tokens, last, finish, level⟩ := c
  cases htokens
  exact ⟨.here _, .statements _ _ _ _⟩

/-- A statement is read in one iteration. -/
theorem iterates_statement {c c' : Cursor} {e : Expr} (found : List Expr) (hne : c.tokens ≠ [])
    (hsign : c.peek? ≠ some (.symbol .semicolon)) (h : Parses (statement limit c) e c') :
    Iterates limit (.statements found c) (.statements (e :: found) c') := by
  refine ⟨?_, .statements _ _ _ _⟩
  obtain ⟨r, hr, rfl, rfl⟩ := h
  have hanswer : answers limit (.statement c) = some (.ok r.plain) := by
    rw [answers, outcome, hr]
    rfl
  delta Calls script
  dsimp only
  split
  · next htokens => exact absurd htokens hne
  · next htokens => exact absurd (Cursor.peek?_of_tokens htokens) hsign
  · exact .later hanswer (.here _)

/-- The loop over statements ends at the end of the tokens, with all statements found. -/
theorem iterations_of_statementsFrom {c : Cursor} {found all : List Expr}
    (h : statementsFrom limit c found = .ok all) :
    ∃ c', Relation.ReflTransGen (Iterates limit) (.statements found c)
      (.statements all.reverse c') ∧ c.Leads c' ∧ c'.tokens = [] := by
  refine statementsFrom_induct (motive := fun found c all => ∃ c',
    Relation.ReflTransGen (Iterates limit) (.statements found c) (.statements all.reverse c') ∧
      c.Leads c' ∧ c'.tokens = []) ?done ?semicolon ?statement h
  case done =>
    intro found c htokens
    rw [List.reverse_reverse]
    exact ⟨c, .refl, .refl c, htokens⟩
  case semicolon =>
    rintro found c span rest all htokens ⟨c', hiterates, hleads, hend⟩
    exact ⟨c', .head (iterates_semicolon found htokens) hiterates,
      (Cursor.Leads.next htokens).trans hleads, hend⟩
  case statement =>
    rintro found c e c₁ all hne hsign he ⟨c', hiterates, hleads, hend⟩
    have hstatement : c.Leads c₁ := Succeeds.leads (k := .statement c) (parses_iff.1 he)
    exact ⟨c', .head (iterates_statement found hne hsign he) hiterates, hstatement.trans hleads,
      hend⟩

end Programs

/-- Parsing ends on every input. Every parse function that succeeds has read on from its
    position, and at most to the end of the tokens. A call is made no further back than
    where the one began that makes it, and at the same position only by a function of a
    higher rank, so each iteration of a loop reads on and the recursion is well-founded:
    no call, whether it succeeds or not, needs calls that nest deeper than its tokens
    allow. A program comes only from a loop that ends behind the last token. -/
theorem parsing_ends (limit size : Nat) (tokens : List Lexeme) :
    MovesOn limit tokens ⟨size, size⟩ ∧
    (∀ k k' i, Calls limit k k' → k.cursor.At tokens ⟨size, size⟩ i →
      ∃ j, i ≤ j ∧ k'.cursor.At tokens ⟨size, size⟩ j ∧ (i = j → k'.rank < k.rank)) ∧
    (∀ k k' i, Iterates limit k k' → k.cursor.At tokens ⟨size, size⟩ i →
      ∃ j, i < j ∧ k'.cursor.At tokens ⟨size, size⟩ j) ∧
    (WellFounded fun k' k => Calls limit k k') ∧
    (∀ k n, 16 * (k.cursor.remaining + 1) ≤ n → within limit n k = some (outcome limit k)) ∧
    ∀ p, Program.ofLexemes limit size tokens = .ok p → ∃ c,
      Relation.ReflTransGen (Iterates limit) (.statements [] (.start size tokens))
        (.statements p.statements.reverse c) ∧
      c.At tokens ⟨size, size⟩ tokens.length := by
  refine ⟨movesOn limit tokens _, fun k k' i h hk => h.moves hk, fun k k' i h hk => h.moves hk,
    wellFounded_calls limit, fun k n h => within_eq_outcome k h, fun p hp => ?_⟩
  rw [Program.ofLexemes] at hp
  cases hall : statementsFrom limit (.start size tokens) [] with
  | error e =>
    rw [hall] at hp
    cases hp
  | ok all =>
    rw [hall] at hp
    cases hp
    obtain ⟨c, hiterates, hleads, hend⟩ := iterations_of_statementsFrom hall
    obtain ⟨j, -, hj⟩ := (Cursor.At.start size tokens).leads hleads
    -- Where no tokens are left, all have been passed.
    cases hj.of_tokens_eq_nil hend
    exact ⟨c, hiterates, hj⟩

/-- `;(1)`, where the parentheses begin behind the first token. -/
theorem parsing_ends_parens :
    let tokens : List Lexeme := [⟨.symbol .semicolon, ⟨0, 1⟩⟩, ⟨.symbol .leftParen, ⟨1, 2⟩⟩,
      ⟨.int 1, ⟨2, 3⟩⟩, ⟨.symbol .rightParen, ⟨3, 4⟩⟩]
    let c : Cursor := ⟨tokens.drop 1, ⟨0, 1⟩, ⟨4, 4⟩, 0⟩
    let program : Call := .statements [] (.start 4 tokens)
    c.At tokens ⟨4, 4⟩ 1 ∧
    (∃ c', Parses (primary 2 c) (.int ⟨1, 4⟩ 1) c' ∧ ∃ j, 1 < j ∧ c'.At tokens ⟨4, 4⟩ j) ∧
    (Iterates 2 program (.statements [] c) ∧ ∃ j, 0 < j ∧ c.At tokens ⟨4, 4⟩ j) ∧
    (Calls 2 (.statements [] c) (.statement c) ∧
      ∃ j, 1 ≤ j ∧ c.At tokens ⟨4, 4⟩ j ∧ (1 = j → 14 < 15)) ∧
    within 2 80 program = some (.ok [.int ⟨1, 4⟩ 1]) ∧
    ∃ c', Relation.ReflTransGen (Iterates 2) program (.statements [.int ⟨1, 4⟩ 1] c') ∧
      c'.At tokens ⟨4, 4⟩ 4 := by
  intro tokens c program
  have hc : c.At tokens ⟨4, 4⟩ 1 := ⟨by decide, rfl, rfl⟩
  have hp : Program.ofLexemes 2 4 tokens = .ok ⟨[.int ⟨1, 4⟩ 1]⟩ := by cbv
  have hprimary : Parses (primary 2 c) (.int ⟨1, 4⟩ 1) ⟨[], ⟨3, 4⟩, ⟨4, 4⟩, 0⟩ := by
    refine ⟨⟨.int ⟨1, 4⟩ 1, _, by decide⟩, ?_, rfl, rfl⟩
    cbv
  have hiterates : Iterates 2 program (.statements [] c) := iterates_semicolon [] rfl
  have hcalls : Calls 2 (.statements [] c) (.statement c) := .here _
  have houtcome : outcome 2 program = .ok [.int ⟨1, 4⟩ 1] := by cbv
  obtain ⟨hmoves, hsteps, hloops, -, hdepth, hend⟩ := parsing_ends 2 4 tokens
  refine ⟨hc, ⟨_, hprimary, hmoves.primary c 1 hc _ _ hprimary⟩, ⟨hiterates, ?_⟩, ⟨hcalls, ?_⟩,
    ?_, hend _ hp⟩
  · exact hloops _ _ 0 hiterates (.start 4 tokens)
  · exact hsteps _ _ 1 hcalls hc
  · rw [hdepth program 80 (by decide), houtcome]

end Grammar
end ScopeScript
