/-
  ScopeScript.Proofs.Grammar.Reading

  Derivations on cursors. A derivation reads from one cursor to another if the
  tokens between them are its yield and there is room for its levels.
-/
import ScopeScript.Proofs.Grammar.Runs
import ScopeScript.Proofs.Grammar.Derivation

namespace ScopeScript
namespace Grammar

namespace Cursor

/-- The tokens that are left, without their spans. -/
def ahead (c : Cursor) : List Token :=
  c.tokens.map (·.token)

variable {c c' : Cursor} {t : Token} {span : Span} {rest : List Lexeme}

@[simp] theorem ahead_deeper (c : Cursor) : c.deeper.ahead = c.ahead := rfl

@[simp] theorem ahead_atLevel (c : Cursor) (level : Nat) : (c.atLevel level).ahead = c.ahead := rfl

@[simp] theorem level_deeper (c : Cursor) : c.deeper.level = c.level + 1 := rfl

@[simp] theorem level_atLevel (c : Cursor) (level : Nat) : (c.atLevel level).level = level := rfl

@[simp] theorem level_past (c : Cursor) (span : Span) (rest : List Lexeme) :
    (c.past span rest).level = c.level := rfl

theorem peek?_eq_head? (c : Cursor) : c.peek? = c.ahead.head? := by
  rw [peek?, ahead, List.head?_map]

theorem ahead_of_tokens (h : c.tokens = ⟨t, span⟩ :: rest) :
    c.ahead = t :: (c.past span rest).ahead := by
  rw [ahead, h]
  rfl

/-- What is ahead stands there with a span. -/
theorem exists_tokens_of_ahead {ts : List Token} (h : c.ahead = t :: ts) :
    ∃ span rest, c.tokens = ⟨t, span⟩ :: rest ∧ (c.past span rest).ahead = ts := by
  obtain ⟨span, rest, htokens⟩ := exists_tokens_of_peek? (c := c) (t := t) (by
    rw [peek?_eq_head?, h]
    rfl)
  refine ⟨span, rest, htokens, ?_⟩
  rw [ahead_of_tokens htokens] at h
  exact (List.cons.inj h).2

end Cursor

/-- The derivation reads what stands between two cursors, within the levels that
    are left. -/
structure Derivation.Reads (limit : Nat) {n : Nonterminal} (d : Derivation n) (c c' : Cursor) :
    Prop where
  targets : d.TargetsIdentifiers
  levels : d.levels ≤ limit - c.level
  ahead : c.ahead = d.yield ++ c'.ahead

end Grammar
end ScopeScript
