/-
  ScopeScript.Proofs.Grammar.Correctness

  The parser accepts the language of the grammar and gives the trees that
  derivations mean, up to source ranges. No production has a reserved word, so no
  program has one.
-/
import ScopeScript.Proofs.Grammar.Soundness
import ScopeScript.Proofs.Grammar.Completeness

namespace ScopeScript
namespace Grammar

open ScopeScript.Grammar.Derivation

/-! ## Reserved words -/

theorem any_isReserved_yield {n : Nonterminal} (d : Derivation n) :
    d.yield.any Token.isReserved = false := by
  induction d with
  | _ => simp only [yield, List.any_nil, List.any_cons, List.any_append, Token.isReserved,
      Bool.or_false, *]

theorem Splits.any_isReserved {limit : Nat} {tokens : List Token} {meanings : List Expr}
    (h : Splits limit tokens meanings) : tokens.any Token.isReserved = false := by
  induction h with
  | nil => rfl
  | semicolon _ ih => exact ih
  | statement d _ _ _ ih => rw [List.any_append, any_isReserved_yield d, ih, Bool.or_false]

/-! ## The language of the parser -/

theorem splits_of_ofLexemes {limit size : Nat} {tokens : List Lexeme} {p : Program}
    (h : Program.ofLexemes limit size tokens = .ok p) :
    Splits limit (tokens.map (·.token)) (p.statements.map Expr.bare) := by
  rw [Program.ofLexemes] at h
  cases hall : statementsFrom limit (.start size tokens) [] with
  | error e => rw [hall] at h; cases h
  | ok all =>
    rw [hall] at h
    cases h
    obtain ⟨es, rfl, hsplits⟩ := splits_of_statementsFrom rfl hall
    exact hsplits

/-- A token list with a reserved word is no program, wherever the word stands. -/
theorem any_isReserved_of_ofLexemes {limit size : Nat} {tokens : List Lexeme} {p : Program}
    (h : Program.ofLexemes limit size tokens = .ok p) :
    (tokens.map (·.token)).any Token.isReserved = false :=
  (splits_of_ofLexemes h).any_isReserved

/-- The tokens of any derivation of a statement, if it assigns to identifiers
    only and nests within the limit, are parsed as one statement, and that is the
    meaning of the derivation. The tokens of any program that is parsed are
    semicolons and yields of such derivations, and these mean its statements. -/
theorem ofLexemes_correct (limit size : Nat) (tokens : List Lexeme) :
    (∀ d : Derivation .statement, d.TargetsIdentifiers → d.levels ≤ limit →
      tokens.map (·.token) = d.yield →
      ∃ e, Program.ofLexemes limit size tokens = .ok ⟨[e]⟩ ∧ e.bare = d.meaning) ∧
    ∀ p, Program.ofLexemes limit size tokens = .ok p →
      Splits limit (tokens.map (·.token)) (p.statements.map Expr.bare) := by
  refine ⟨fun d ht hlevels hyield => exists_ofLexemes size ht hlevels hyield, fun p h => ?_⟩
  exact splits_of_ofLexemes h

/-- The tokens of `x = -1`. -/
theorem ofLexemes_correct_assignment :
    let tokens : List Lexeme := [⟨.name "x", ⟨0, 1⟩⟩, ⟨.symbol .assign, ⟨2, 3⟩⟩,
      ⟨.symbol .minus, ⟨4, 5⟩⟩, ⟨.int 1, ⟨5, 6⟩⟩]
    ∃ e, Program.ofLexemes 10 6 tokens = .ok ⟨[e]⟩ ∧
      e.bare = .assign nowhere [.string nowhere "x"] (.int nowhere (-1)) false ∧
      Splits 10 (tokens.map (·.token)) [e.bare] := by
  intro tokens
  obtain ⟨e, he, hmeaning⟩ := (ofLexemes_correct 10 6 tokens).1
    (.statement (@Derivation.assign .plain .assign rfl
      (chainOf (.unsigned (.address "x" .segmentsEnd)))
      (expressionOf (.minus (.unsigned (.primary (.int 1)))))))
    ⟨⟨_, _, _, rfl⟩, (targetsIdentifiers_chainOf _).2 trivial,
      (targetsIdentifiers_expressionOf _).2 trivial⟩ (by decide) rfl
  exact ⟨e, he, hmeaning, (ofLexemes_correct 10 6 tokens).2 _ he⟩

end Grammar
end ScopeScript
