/-
  ScopeScript.Proofs.Grammar.Follow

  Which tokens begin what a nonterminal derives, and which may stand behind it.
  Both are read off one number for each token: `start` tells how loose a
  nonterminal must be to begin with the token, `grip` how tightly the token
  binds to what stands before it. The parser looks one token ahead, and these
  numbers say that one is enough.
-/
import ScopeScript.Proofs.Grammar.Reading

namespace ScopeScript
namespace Grammar

/-! ## First tokens -/

/-- The tokens that begin primary expressions, other operands without a sign, and
    operands with one; all others begin no expression. -/
def start : Token → Nat
  | .int _ | .double _ | .string _ => 1
  | .symbol .leftParen | .symbol .leftBracket | .symbol .leftBrace => 1
  | .name _ => 2
  | .symbol .minus | .symbol .increment | .symbol .decrement => 3
  | _ => 4

/-- The greatest `start` of the first token of a nonterminal that stands for a
    tree. -/
def Nonterminal.start? : Nonterminal → Option Nat
  | primary => some 1
  | suffixed => some 2
  | unary | operand _ | chain _ | expression => some 3
  | _ => none

theorem start_of_stepSign? {op : BinaryOp} {s : Symbol} (h : stepSign? op = some s) :
    start (.symbol s) = 3 := by
  cases op <;> cases h <;> rfl

/-- The yield of a tree is not empty, and its first token can begin one. -/
theorem Derivation.exists_start {n : Nonterminal} (d : Derivation n) {k : Nat}
    (h : n.start? = some k) : ∃ t ts, d.yield = t :: ts ∧ start t ≤ k := by
  induction d generalizing k with
  | value e ih => exact ih h
  | @assign sign s hs target right ih _ =>
    obtain ⟨t, ts, hyield, hstart⟩ := ih h
    refine ⟨t, ts ++ .symbol s :: right.yield, ?_, hstart⟩
    rw [yield, hyield]
    rfl
  | chain first rest ih _ =>
    obtain ⟨t, ts, hyield, hstart⟩ := ih h
    refine ⟨t, ts ++ rest.yield, ?_, hstart⟩
    rw [yield, hyield]
    rfl
  | tighter hq inner ih => exact ih h
  | operand inner ih => exact ih h
  | minus inner _ =>
    cases h
    exact ⟨_, _, rfl, Nat.le_refl _⟩
  | step hs inner _ =>
    cases h
    exact ⟨_, _, rfl, Nat.le_of_eq (start_of_stepSign? hs)⟩
  | unsigned inner ih =>
    cases h
    obtain ⟨t, ts, hyield, hstart⟩ := ih rfl
    exact ⟨t, ts, hyield, Nat.le_succ_of_le hstart⟩
  | address name rest _ =>
    cases h
    exact ⟨_, _, rfl, Nat.le_refl _⟩
  | addressStep hs name rest _ =>
    cases h
    exact ⟨_, _, rfl, Nat.le_refl _⟩
  | primary inner ih =>
    cases h
    obtain ⟨t, ts, hyield, hstart⟩ := ih rfl
    exact ⟨t, ts, hyield, Nat.le_succ_of_le hstart⟩
  | int n | double d | string s | parens e _ | list elements _ | object members _ =>
    cases h
    exact ⟨_, _, rfl, Nat.le_refl _⟩
  | _ => cases h

/-! ## Following tokens -/

/-- How tightly a token binds to an expression before it; those that end one do
    not. -/
def grip : Token → Nat
  | .symbol .assign | .symbol .plusAssign | .symbol .minusAssign | .symbol .starAssign
  | .symbol .slashAssign | .symbol .percentAssign | .symbol .powerAssign => 1
  | .symbol .equal | .symbol .notEqual | .symbol .less | .symbol .greater
  | .symbol .lessEqual | .symbol .greaterEqual => 2
  | .symbol .plus | .symbol .minus => 3
  | .symbol .star | .symbol .slash | .symbol .percent => 4
  | .symbol .power => 5
  | .symbol .increment | .symbol .decrement => 6
  | .symbol .dot | .symbol .leftBracket | .symbol .leftParen => 7
  | _ => 0

/-- The grip of the operators of a precedence. -/
def Precedence.grip : Precedence → Nat
  | comparison => 2
  | additive => 3
  | multiplicative => 4
  | exponential => 5

/-- The next token, if there is one, binds less tightly than `n`. -/
def Loose (n : Nat) (ts : List Token) : Prop :=
  ∀ t ∈ ts.head?, Grammar.grip t < n

theorem Loose.mono {m n : Nat} {ts : List Token} (h : Loose m ts) (hmn : m ≤ n) : Loose n ts :=
  fun t ht => Nat.lt_of_lt_of_le (h t ht) hmn

theorem loose_cons {n : Nat} {t : Token} {ts : List Token} (h : Grammar.grip t < n) :
    Loose n (t :: ts) := by
  intro u hu
  cases hu
  exact h

theorem grip_of_operator? {p : Precedence} {s : Symbol} {op : BinaryOp}
    (h : p.operator? s = some op) : Grammar.grip (.symbol s) = p.grip := by
  obtain ⟨rfl, rfl⟩ := operator?_eq_some_iff.1 h
  cases op <;> rfl

theorem grip_of_ofSymbol? {s : Symbol} {sign : AssignSign}
    (h : AssignSign.ofSymbol? s = some sign) : Grammar.grip (.symbol s) = 1 := by
  cases s <;> cases h <;> rfl

theorem grip_of_stepOp? {s : Symbol} {op : BinaryOp} (h : stepOp? s = some op) :
    Grammar.grip (.symbol s) = 6 := by
  cases s <;> cases h <;> rfl

/-- A table of signs that grip as tightly as `n` has none for the next token. -/
theorem Loose.eq_none {α : Type} {n : Nat} {c : Cursor} {table : Symbol → Option α}
    (h : Loose n c.ahead)
    (htable : ∀ s a, table s = some a → n ≤ Grammar.grip (.symbol s)) :
    ∀ s, c.peek? = some (.symbol s) → table s = none := by
  intro s hs
  rw [Cursor.peek?_eq_head?] at hs
  have hlt := h _ hs
  cases ha : table s with
  | none => rfl
  | some a =>
    have := htable s a ha
    omega

/-- What may stand behind the yield of a nonterminal. -/
def Nonterminal.EndsBefore : Nonterminal → List Token → Prop
  | statement, ts | printed, ts | printedRest, ts =>
    ts.head? = none ∨ ts.head? = some (.symbol .semicolon)
  | expression, ts => Loose 1 ts
  | chain p, ts | chainRest p, ts => Loose p.grip ts
  | operand p, ts => Loose (p.grip + 1) ts
  | unary, ts | suffixed, ts => Loose 6 ts
  | segments, ts => Loose 7 ts
  | primary, _ => True
  | items, ts =>
    ts.head? = some (.symbol .rightParen) ∨ ts.head? = some (.symbol .rightBracket)
  | entries, ts => ts.head? = some (.symbol .rightBrace)

end Grammar
end ScopeScript
