/-
  ScopeScript.Proofs.Grammar.Limit

  The limit on nesting. A parse under a limit goes as it would under any higher one
  until it meets the limit, so the limit is met or makes no difference: the scripts of
  a call under two limits are in step up to there (`Script.InStep`), and so is what
  they come to. What the statements of a program need of the limit are the levels of
  their derivations.
-/
import Mathlib.Data.Nat.Find
import ScopeScript.Proofs.Grammar.Unambiguous

namespace ScopeScript
namespace Grammar

variable {α β : Type} {n m : Nat}

/-! ## Two limits -/

/-- What a parse comes to under the limit `n` and under a higher one. Either it
    meets the lower limit, which its error names, or both come to the same, and
    that is no error about nesting. -/
inductive Agrees (n : Nat) : Except ParseError α → Except ParseError α → Prop where
  | met (span : Span) (y : Except ParseError α) : Agrees n (.error ⟨.tooDeep n, span⟩) y
  | ok (a : α) : Agrees n (.ok a) (.ok a)
  | error (e : ParseError) (h : ∀ k, e.fault ≠ .tooDeep k) : Agrees n (.error e) (.error e)

namespace Agrees

/-- What is made of the results agrees too. -/
theorem map {x y : Except ParseError α} (h : Agrees n x y) (f : α → β) :
    Agrees n (x.map f) (y.map f) := by
  cases h with
  | met span y => exact .met span _
  | ok a => exact .ok _
  | error e he => exact .error e he

/-- No error about a token that is not wanted is about nesting. -/
theorem unexpected (c : Cursor) (wanted : Wanted) :
    Agrees n (.error (c.unexpected wanted) : Except ParseError α) (.error (c.unexpected wanted)) :=
  .error _ nofun

/-- Nor is one about a target. -/
theorem target (use : TargetUse) (e : Expr) :
    Agrees n (Grammar.target use e) (Grammar.target use e) := by
  unfold Grammar.target
  split
  · exact .ok _
  · exact .error _ nofun

/-- A sign is there or not under any limit. -/
theorem eat (c : Cursor) (sign : Symbol) : Agrees n (c.eat sign) (c.eat sign) := by
  rw [Cursor.eat]
  split
  · split
    · exact .ok _
    · exact .unexpected c _
  · exact .unexpected c _

end Agrees

/-! ## Scripts in step -/

namespace Script

/-- Two scripts ask for the same up to where the first one meets the limit `n`. -/
inductive InStep (n : Nat) : Script α → Script α → Prop where
  | met (span : Span) (s : Script α) : InStep n (.ends (.error ⟨.tooDeep n, span⟩)) s
  | ends {x y : Except ParseError α} (h : Agrees n x y) : InStep n (.ends x) (.ends y)
  | both (k : Call) {next next' : k.Gives → Script α} (h : ∀ g, InStep n (next g) (next' g)) :
    InStep n (.asks k next) (.asks k next')

namespace InStep

variable {s s' : Script α}

theorem pure (a : α) : InStep n (Pure.pure a) (Pure.pure a) :=
  .ends (.ok a)

theorem asks {k : Call} {f f' : k.Gives → Script β} (hf : ∀ g, InStep n (f g) (f' g)) :
    InStep n (Script.call k >>= f) (Script.call k >>= f') :=
  .both k hf

theorem call (k : Call) : InStep n (Script.call k) (Script.call k) :=
  .both k fun g => .pure g

/-- What is known without a call is the same under both limits. -/
theorem known {x : Except ParseError α} {f f' : α → Script β} (hx : Agrees n x x)
    (hf : ∀ a, InStep n (f a) (f' a)) : InStep n (.ends x >>= f) (.ends x >>= f') := by
  cases hx with
  | met span => exact .met span _
  | ok a => exact hf a
  | error e he => exact .ends (.error e he)

/-- Where a level is opened the lower limit is met first. -/
theorem level (hnm : n ≤ m) {opened : Nat} {c : Cursor} (h : InStep n s s') :
    InStep n (if n ≤ opened then .ends (.error (c.tooDeep n)) else s)
      (if m ≤ opened then .ends (.error (c.tooDeep m)) else s') := by
  by_cases hn : n ≤ opened
  · rw [if_pos hn]
    exact .met _ _
  · rw [if_neg hn, if_neg (by omega)]
    exact h

/-- Scripts in step come to the same up to the limit, if what they ask for does. -/
theorem agrees {x y : Except ParseError α} (h : InStep n s s')
    (hanswers : ∀ k, s.Makes (answers n) k → Agrees n (outcome n k) (outcome m k))
    (hx : s.run (answers n) = some x) (hy : s'.run (answers m) = some y) : Agrees n x y := by
  induction h with
  -- The lower limit was met, whatever the other script goes on to.
  | met span s =>
    cases hx
    exact .met span y
  | ends h =>
    cases hx
    cases hy
    exact h
  | both k h ih =>
    have hk := hanswers k (.here _)
    rw [Script.run, answers] at hx hy
    -- The calls come to the same, or the limit is met in this one.
    generalize houtcome : outcome n k = u at hk hx
    generalize outcome m k = v at hk hy
    cases hk with
    | met span v =>
      cases hx
      exact .met span y
    | error e he =>
      cases hx
      cases hy
      exact .error e he
    | ok g => exact ih g (fun j hj => hanswers j (.later (congrArg some houtcome) hj)) hx hy

end InStep
end Script

/-! ## Parse functions -/

/-- The scripts of a call under two limits are in step. -/
abbrev Call.InStep (n m : Nat) (k : Call) : Prop :=
  (script n k).InStep n (script m k)

section Scripts

variable (c : Cursor)

/-- The script of an expression opens its level first, and its parts are asked for under both
    limits alike. -/
theorem inStep_expression (hnm : n ≤ m) : Call.InStep n m (.expression c) := by
  delta Call.InStep script
  dsimp only
  refine .level hnm (.asks ?_)
  rintro ⟨left, c₁⟩
  dsimp only
  split
  · split
    · refine .known (.target _ _) fun keys => .asks ?_
      rintro ⟨right, c₂⟩
      exact .pure _
    · exact .pure _
  · exact .pure _

theorem inStep_chain (p : Precedence) : Call.InStep n m (.chain p c) := by
  delta Call.InStep script
  dsimp only
  exact .asks fun (first, c₁) => .asks fun (all, c₂) => .pure _

theorem inStep_operand (p : Precedence) : Call.InStep n m (.operand p c) := by
  delta Call.InStep script
  dsimp only
  split <;> exact .call _

theorem inStep_chainRest (hnm : n ≤ m) (p : Precedence) (left : Expr) :
    Call.InStep n m (.chainRest p left c) := by
  delta Call.InStep script
  dsimp only
  split
  · split
    · refine .level hnm (.asks ?_)
      rintro ⟨right, c₁⟩
      exact .call _
    · exact .pure _
  · exact .pure _

theorem inStep_unary (hnm : n ≤ m) : Call.InStep n m (.unary c) := by
  delta Call.InStep script
  dsimp only
  split
  · split
    · refine .level hnm (.asks ?_)
      rintro ⟨inner, c₁⟩
      exact .pure _
    · split
      · refine .asks ?_
        rintro ⟨inner, c₁⟩
        exact .known (.target _ _) fun keys => .pure _
      · exact .call _
  · exact .call _

theorem inStep_suffixed : Call.InStep n m (.suffixed c) := by
  delta Call.InStep script
  dsimp only
  split
  · refine .asks fun (keys, c₁) => ?_
    -- Behind the address the limit is not looked at.
    dsimp only
    split
    · split <;> exact .pure _
    · exact .pure _
  · exact .call _

theorem inStep_address (hnm : n ≤ m) (start : Span) (keys : List Expr) :
    Call.InStep n m (.address start keys c) := by
  delta Call.InStep script
  dsimp only
  -- Of the segments only a call opens a level.
  split
  · exact .call _
  · exact .ends (.unexpected _ _)
  · refine .asks fun (index, c₁) => .known ((Agrees.eat _ _).map _) fun (close, c₂) => ?_
    exact .call _
  · refine .level hnm (.asks fun (arguments, c₁) => ?_)
    exact .known ((Agrees.eat _ _).map _) fun (close, c₂) => .call _
  · exact .pure _

theorem inStep_primary : Call.InStep n m (.primary c) := by
  delta Call.InStep script
  dsimp only
  split
  · exact .pure _
  · exact .pure _
  · exact .pure _
  · exact .asks fun (inner, c₁) => .known ((Agrees.eat _ _).map _) fun (close, c₂) => .pure _
  · exact .asks fun (elements, c₁) => .known ((Agrees.eat _ _).map _) fun (close, c₂) => .pure _
  · exact .asks fun (members, c₁) => .known ((Agrees.eat _ _).map _) fun (close, c₂) => .pure _
  · exact .ends (.unexpected _ _)

theorem inStep_items (close : Symbol) : Call.InStep n m (.items close c) := by
  delta Call.InStep script
  dsimp only
  split
  · exact .pure _
  refine .asks fun (first, c₁) => ?_
  dsimp only
  split
  · exact .asks fun (others, c₂) => .pure _
  · exact .pure _

theorem inStep_entries : Call.InStep n m (.entries c) := by
  delta Call.InStep script
  dsimp only
  split
  · exact .pure _
  refine .asks fun (key, c₁) => .known ((Agrees.eat _ _).map _) fun (colon, c₂) => ?_
  refine .asks fun (value, c₃) => ?_
  dsimp only
  split
  · exact .asks fun (others, c₄) => .pure _
  · exact .pure _

theorem inStep_printedAfterComma : Call.InStep n m (.printedAfterComma c) := by
  delta Call.InStep script
  dsimp only
  split
  · exact .asks fun (first, c₁) => .asks fun (others, c₂) => .pure _
  · exact .pure _

theorem inStep_printed : Call.InStep n m (.printed c) := by
  delta Call.InStep script
  dsimp only
  split
  · exact .pure _
  · exact .asks fun (first, c₁) => .asks fun (others, c₂) => .pure _

theorem inStep_statement : Call.InStep n m (.statement c) := by
  delta Call.InStep script
  dsimp only
  split
  · exact .ends (.error _ nofun)
  · refine .asks fun (arguments, c₁) => ?_
    dsimp only
    split
    · exact .pure _
    · exact .ends (.unexpected _ _)
  · exact .call _

theorem inStep_statements (found : List Expr) : Call.InStep n m (.statements found c) := by
  delta Call.InStep script
  dsimp only
  split
  · exact .pure _
  · exact .call _
  · exact .asks fun (e, c₁) => .call _

end Scripts

/-- The scripts of every call are in step. -/
theorem inStep (hnm : n ≤ m) (k : Call) : k.InStep n m := by
  cases k with
  | expression c => exact inStep_expression c hnm
  | chain p c => exact inStep_chain c p
  | operand p c => exact inStep_operand c p
  | chainRest p left c => exact inStep_chainRest c hnm p left
  | unary c => exact inStep_unary c hnm
  | suffixed c => exact inStep_suffixed c
  | address start keys c => exact inStep_address c hnm start keys
  | primary c => exact inStep_primary c
  | items close c => exact inStep_items c close
  | entries c => exact inStep_entries c
  | printedAfterComma c => exact inStep_printedAfterComma c
  | printed c => exact inStep_printed c
  | statement c => exact inStep_statement c
  | statements found c => exact inStep_statements c found

/-- Every call comes to the same under both limits, or meets the lower one. -/
theorem agrees_outcome (hnm : n ≤ m) (k : Call) : Agrees n (outcome n k) (outcome m k) := by
  obtain ⟨hrun, hmakes⟩ := unfolds n k
  refine (inStep hnm k).agrees (fun k' hk' => ?_) hrun (unfolds m k).run
  -- The calls that are made have less left to do.
  have hlt := hmakes k' hk'
  exact agrees_outcome hnm k'
termination_by k.weight

/-! ## The counter -/

/-- Every parse function that comes to a cursor comes to one at the level that
    it began at. -/
structure KeepsLevel (limit : Nat) : Prop where
  expression {c c' : Cursor} {e : Expr} : Parses (expression limit c) e c' → c'.level = c.level
  chain {p : Precedence} {c c' : Cursor} {e : Expr} :
    Parses (chain limit p c) e c' → c'.level = c.level
  operand {p : Precedence} {c c' : Cursor} {e : Expr} :
    Parses (operand limit p c) e c' → c'.level = c.level
  unary {c c' : Cursor} {e : Expr} : Parses (unary limit c) e c' → c'.level = c.level
  suffixed {c c' : Cursor} {e : Expr} : Parses (suffixed limit c) e c' → c'.level = c.level
  primary {c c' : Cursor} {e : Expr} : Parses (primary limit c) e c' → c'.level = c.level
  items {close : Symbol} {c c' : Cursor} {es : List Expr} :
    Reaches (items limit close c) es c' → c'.level = c.level
  entries {c c' : Cursor} {es : List (Expr × Expr)} :
    Reaches (entries limit c) es c' → c'.level = c.level
  printedAfterComma {c c' : Cursor} {es : List Expr} :
    Reaches (printedAfterComma limit c) es c' → c'.level = c.level
  printed {c c' : Cursor} {es : List Expr} : Reaches (printed limit c) es c' → c'.level = c.level
  statement {c c' : Cursor} {e : Expr} : Parses (statement limit c) e c' → c'.level = c.level

/-- The level that derivations end at is the one that they began at. -/
theorem keepsLevel (limit : Nat) : KeepsLevel limit where
  expression {c _ _} h :=
    (Succeeds.sound (k := .expression c) (parses_iff.1 h)).elim fun _ hd => hd.2.2.1
  chain {p c _ _} h := (Succeeds.sound (k := .chain p c) (parses_iff.1 h)).elim fun _ hd => hd.2.2.1
  operand {p c _ _} h :=
    (Succeeds.sound (k := .operand p c) (parses_iff.1 h)).elim fun _ hd => hd.2.2.1
  unary {c _ _} h := (Succeeds.sound (k := .unary c) (parses_iff.1 h)).elim fun _ hd => hd.2.2.1
  suffixed {c _ _} h :=
    (Succeeds.sound (k := .suffixed c) (parses_iff.1 h)).elim fun _ hd => hd.2.2.1
  primary {c _ _} h := (Succeeds.sound (k := .primary c) (parses_iff.1 h)).elim fun _ hd => hd.2.2.1
  items {close c _ _} h :=
    (Succeeds.sound (k := .items close c) (reaches_iff.1 h)).elim fun _ hd => hd.2.2.1
  entries {c _ _} h :=
    (Succeeds.sound (k := .entries c) (reaches_iff.1 h)).elim fun _ hd => hd.2.2.1
  printedAfterComma {c _ _} h :=
    (Succeeds.sound (k := .printedAfterComma c) (reaches_iff.1 h)).elim fun _ hd => hd.2.2.1
  printed {c _ _} h :=
    (Succeeds.sound (k := .printed c) (reaches_iff.1 h)).elim fun _ hd => hd.2.2.1
  statement h := level_of_statement h

/-! ## Programs -/

variable {size : Nat} {tokens : List Lexeme} {p q : Program}

/-- So does a program. -/
theorem agrees_ofLexemes (hnm : n ≤ m) (size : Nat) (tokens : List Lexeme) :
    Agrees n (Program.ofLexemes n size tokens) (Program.ofLexemes m size tokens) := by
  exact (agrees_outcome hnm (.statements [] (.start size tokens))).map Program.mk

/-- The tokens are found to nest too deeply. -/
def TooDeep (x : Except ParseError α) : Prop :=
  ∃ k span, x = .error ⟨.tooDeep k, span⟩

/-- Where the lower limit is not met the higher one makes no difference. -/
theorem Agrees.eq_of_not_tooDeep {x y : Except ParseError α} (h : Agrees n x y)
    (hx : ¬ TooDeep x) : x = y := by
  cases h with
  | met span y => exact absurd ⟨n, span, rfl⟩ hx
  | ok a => rfl
  | error e he => rfl

/-- Where the higher limit is met the lower one is, and is named. -/
theorem Agrees.tooDeep {x y : Except ParseError α} (h : Agrees n x y) (hy : TooDeep y) :
    ∃ span, x = .error ⟨.tooDeep n, span⟩ := by
  cases h with
  | met span y => exact ⟨span, rfl⟩
  | ok a =>
    obtain ⟨k, span, hk⟩ := hy
    cases hk
  | error e he =>
    obtain ⟨k, span, hk⟩ := hy
    cases hk
    -- An error that both come to is not about nesting.
    exact absurd rfl (he k)

/-- A program has derivations that spell its tokens within the limit, and any limit with room
    for their levels gives it. -/
theorem exists_spells (h : Program.ofLexemes n size tokens = .ok p) :
    ∃ ds, Spells (tokens.map (·.token)) ds ∧ ds.map (·.meaning) = p.statements.map Expr.bare ∧
      (∀ d ∈ ds, d.TargetsIdentifiers ∧ d.levels ≤ n) ∧
      ∀ m, (∀ d ∈ ds, d.levels ≤ m) → Program.ofLexemes m size tokens = .ok p := by
  rw [Program.ofLexemes] at h
  cases hall : statementsFrom n (.start size tokens) [] with
  | error e => rw [hall] at h; cases h
  | ok all =>
    rw [hall] at h
    cases h
    obtain ⟨es, ds, rfl, hspells, hmeaning, hlevels, hroom⟩ := spells_of_statementsFrom rfl hall
    refine ⟨ds, hspells, hmeaning, hlevels, fun m hm => ?_⟩
    rw [Program.ofLexemes, hroom m hm]
    rfl

/-- The limit is exact and otherwise invisible. Where it is not met any higher
    one gives the same program or the same error, and where it is met any lower
    one is met too, and named. Every parse function leaves the count of levels as
    it found it. A program that is read under some limit has derivations, which are
    the only ones that spell its tokens with its meanings, and is read under exactly
    those limits that are no less than their levels. -/
theorem ofLexemes_limit (size : Nat) (tokens : List Lexeme) :
    (∀ n m, n ≤ m → ¬ TooDeep (Program.ofLexemes n size tokens) →
      Program.ofLexemes m size tokens = Program.ofLexemes n size tokens) ∧
    (∀ n m, m ≤ n → TooDeep (Program.ofLexemes n size tokens) →
      ∃ span, Program.ofLexemes m size tokens = .error ⟨.tooDeep m, span⟩) ∧
    (∀ n, KeepsLevel n) ∧
    ∀ k p, Program.ofLexemes k size tokens = .ok p →
      (∃ ds, Spells (tokens.map (·.token)) ds ∧ ds.map (·.meaning) = p.statements.map Expr.bare ∧
        ∀ d ∈ ds, d.TargetsIdentifiers) ∧
      ∀ ds, Spells (tokens.map (·.token)) ds → ds.map (·.meaning) = p.statements.map Expr.bare →
        (∀ d ∈ ds, d.TargetsIdentifiers) →
        ∀ n, Program.ofLexemes n size tokens = .ok p ↔ ∀ d ∈ ds, d.levels ≤ n := by
  refine ⟨fun n m hnm hn => ?_, fun n m hmn hn => ?_, keepsLevel, fun k p hp => ?_⟩
  · exact ((agrees_ofLexemes hnm size tokens).eq_of_not_tooDeep hn).symm
  · exact (agrees_ofLexemes hmn size tokens).tooDeep hn
  · -- The derivations are those of the parse under the least limit, which has
    -- room for their levels; so has any limit under which there is a parse.
    have hsome : ∃ n, Program.ofLexemes n size tokens = .ok p := ⟨k, hp⟩
    classical
    obtain ⟨ds, hspells, hmeaning, hlevels, hroom⟩ := exists_spells (Nat.find_spec hsome)
    have htargets : ∀ d ∈ ds, d.TargetsIdentifiers := fun d hd => (hlevels d hd).1
    refine ⟨⟨ds, hspells, hmeaning, htargets⟩, fun es hes hmeaning' htargets' n => ?_⟩
    -- There are no others.
    obtain rfl : ds = es := hspells.unique hes (hmeaning.trans hmeaning'.symm) htargets htargets'
    refine ⟨fun hn d hd => ?_, hroom n⟩
    exact Nat.le_trans (hlevels d hd).2 (Nat.find_min' hsome hn)

/-- `(1)` nests two levels. -/
theorem ofLexemes_limit_parens :
    let tokens : List Lexeme := [⟨.symbol .leftParen, ⟨0, 1⟩⟩, ⟨.int 1, ⟨1, 2⟩⟩,
      ⟨.symbol .rightParen, ⟨2, 3⟩⟩]
    let inside : Derivation .expression := .expressionOf (.unsigned (.primary (.int 1)))
    let d : Derivation .statement :=
      .statement (.expressionOf (.unsigned (.primary (.parens inside))))
    Program.ofLexemes 9 3 tokens = Program.ofLexemes 2 3 tokens ∧
      (∃ span, Program.ofLexemes 0 3 tokens = .error ⟨.tooDeep 0, span⟩) ∧
      Spells (tokens.map (·.token)) [d] ∧ d.levels = 2 ∧
      ∀ n, Program.ofLexemes n 3 tokens = .ok ⟨[.int ⟨0, 3⟩ 1]⟩ ↔ ∀ c ∈ [d], c.levels ≤ n := by
  intro tokens inside d
  -- The parentheses are an expression in an expression.
  have htwo : Program.ofLexemes 2 3 tokens = .ok ⟨[.int ⟨0, 3⟩ 1]⟩ := by cbv
  have hone : Program.ofLexemes 1 3 tokens = .error ⟨.tooDeep 1, ⟨1, 2⟩⟩ := by cbv
  have hspells : Spells (tokens.map (·.token)) [d] := .statement d .nil
  have htargets : d.TargetsIdentifiers := (Derivation.targetsIdentifiers_expressionOf _).2
    ((Derivation.targetsIdentifiers_expressionOf _).2 trivial)
  obtain ⟨hhigher, hlower, -, hlevels⟩ := ofLexemes_limit 3 tokens
  refine ⟨hhigher 2 9 (by decide) ?_, hlower 1 0 (by decide) ⟨1, _, hone⟩, hspells, rfl,
    (hlevels 2 _ htwo).2 [d] hspells rfl (List.forall_mem_singleton.2 htargets)⟩
  rintro ⟨k, span, h⟩
  cases htwo.symm.trans h

end Grammar
end ScopeScript
