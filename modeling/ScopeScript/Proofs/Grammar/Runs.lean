/-
  ScopeScript.Proofs.Grammar.Runs

  What a parse function gives where it succeeds, a value and the cursor behind it, and
  which token is next there.
-/
import ScopeScript.Grammar.Program

namespace ScopeScript
namespace Grammar

/-! ## Results -/

section Results

variable {α : Type} {c c' : Cursor} {a : α}

/-- A parse gives a value, and the cursor behind it. -/
def Parses (x : Except ParseError (Parsed c α)) (a : α) (c' : Cursor) : Prop :=
  ∃ r, x = .ok r ∧ r.value = a ∧ r.next = c'

/-- A parse that may read nothing gives a value, and the cursor behind it. -/
def Reaches (x : Except ParseError (Reached c α)) (a : α) (c' : Cursor) : Prop :=
  ∃ r, x = .ok r ∧ r.value = a ∧ r.next = c'

theorem Parses.lt {x : Except ParseError (Parsed c α)} (h : Parses x a c') :
    c'.remaining < c.remaining := by
  obtain ⟨r, -, -, rfl⟩ := h
  exact r.moved

theorem Reaches.le {x : Except ParseError (Reached c α)} (h : Reaches x a c') :
    c'.remaining ≤ c.remaining := by
  obtain ⟨r, -, -, rfl⟩ := h
  exact r.kept

/-- A result that is there was given. -/
theorem eq_ok_of_mem_toOption {ε : Type} {x : Except ε α} (h : a ∈ x.toOption) : x = .ok a := by
  cases x with
  | error e => cases h
  | ok b => exact congrArg Except.ok (Option.some.inj h)

end Results

/-! ## Cursors -/

namespace Cursor

variable {c c' : Cursor} {t : Token} {span : Span} {rest : List Lexeme}

theorem peek?_of_tokens (h : c.tokens = ⟨t, span⟩ :: rest) : c.peek? = some t := by
  rw [peek?, h]
  rfl

theorem exists_tokens_of_peek? (h : c.peek? = some t) :
    ∃ span rest, c.tokens = ⟨t, span⟩ :: rest := by
  rw [peek?, Option.map_eq_some_iff] at h
  obtain ⟨⟨u, span⟩, hhead, rfl⟩ := h
  obtain ⟨rest, hrest⟩ := List.head?_eq_some_iff.1 hhead
  exact ⟨span, rest, hrest⟩

/-- No token of a kind that is not at the front of the list is next. -/
theorem peek?_ne (h : ∀ span rest, c.tokens ≠ ⟨t, span⟩ :: rest) : c.peek? ≠ some t := by
  intro ht
  obtain ⟨span, rest, htokens⟩ := exists_tokens_of_peek? ht
  exact h span rest htokens

/-- Only the next symbol is looked up in a table of signs. -/
theorem eq_none_of_tokens {α : Type} {table : Symbol → Option α} {s : Symbol}
    (htokens : c.tokens = ⟨.symbol s, span⟩ :: rest) (h : table s = none) :
    ∀ s', c.peek? = some (.symbol s') → table s' = none := by
  intro s' hs'
  cases (peek?_of_tokens htokens).symm.trans hs'
  exact h

/-- A symbol is eaten where it stands next. -/
theorem parses_eat_iff {sign : Symbol} :
    Parses (c.eat sign) span c' ↔
      ∃ rest, c.tokens = ⟨.symbol sign, span⟩ :: rest ∧ c' = c.past span rest := by
  constructor
  · rintro ⟨r, h, rfl, rfl⟩
    rw [eat] at h
    split at h
    · next s span rest htokens =>
      split at h
      · next hs =>
        subst hs
        cases h
        exact ⟨rest, htokens, rfl⟩
      · cases h
    · cases h
  · rintro ⟨rest, htokens, rfl⟩
    obtain ⟨tokens, last, finish, level⟩ := c
    subst htokens
    exact ⟨_, if_pos rfl, rfl, rfl⟩

theorem atStatementEnd_iff :
    c.atStatementEnd = true ↔ c.peek? = none ∨ c.peek? = some (.symbol .semicolon) := by
  rw [Cursor.atStatementEnd]
  split
  · next h => simp [h]
  · next h => simp [h]
  · next h h' =>
    constructor
    · intro hfalse
      cases hfalse
    · rintro (hnone | hsome)
      · exact absurd hnone h
      · exact absurd hsome h'

end Cursor

end Grammar
end ScopeScript
