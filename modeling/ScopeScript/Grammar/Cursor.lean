/-
  ScopeScript.Grammar.Cursor

  Where a parse stands: the tokens still to be read, the span of the last one
  that was read, and how deeply the expression at hand is nested. What a parse
  function returns says in its type how far it moved: `Parsed` holds fewer
  tokens than before, `Reached` no more. Every recursion of the grammar
  terminates by that count.
-/
import ScopeScript.Token
import ScopeScript.Expr

namespace ScopeScript
namespace Grammar

/-! ## Errors -/

/-- What a parse looked for. -/
inductive Wanted where
  | symbol (sign : Symbol)
  | expression
  | propertyName
  | endOfPrint
deriving DecidableEq

/-- What wanted an address to write to. -/
inductive TargetUse where
  | assignment
  | step (sign : Symbol)
deriving DecidableEq

/-- Why a token list is not a program. -/
inductive ParseFault where
  | tooDeep (limit : Nat)
  | reserved (word : Keyword)
  | expected (wanted : Wanted) (found : Option Token)
  | badTarget (use : TargetUse) (kind : String)
deriving DecidableEq

/-- A text between the marks that set off source text in messages. -/
def marked (s : String) : String := "\x60" ++ s ++ "\x60"

def Wanted.text : Wanted → String
  | symbol s => marked s.spelling
  | expression => "expression"
  | propertyName => "property name after " ++ marked "."
  | endOfPrint => "end of statement after " ++ marked "@"

def TargetUse.text : TargetUse → String
  | assignment => "assign to"
  | step s => "apply " ++ marked s.spelling ++ " to"

def ParseFault.message : ParseFault → String
  | tooDeep limit => "nesting too deep (limit " ++ toString limit ++ ")"
  | reserved k =>
    "unexpected reserved keyword " ++ marked k.spelling ++ " at the start of a statement"
  | expected wanted found =>
    "expected " ++ wanted.text ++ ", found " ++
      match found with
      | some t => marked t.text
      | none => "end of input"
  | badTarget use kind => "cannot " ++ use.text ++ " " ++ kind

/-- A fault and the bytes at which it was found. -/
structure ParseError where
  fault : ParseFault
  span : Span
deriving DecidableEq

/-! ## Cursors -/

structure Cursor where
  tokens : List Lexeme
  /-- The span of the token read last. -/
  last : Span
  /-- The empty span at the end of the source. -/
  finish : Span
  /-- The number of nested levels that are open. -/
  level : Nat
deriving DecidableEq

namespace Cursor

/-- The start of the tokens of a source that is `size` bytes long. -/
def start (size : Nat) (tokens : List Lexeme) : Cursor :=
  ⟨tokens, ⟨size, size⟩, ⟨size, size⟩, 0⟩

/-- How many tokens are left. -/
def remaining (c : Cursor) : Nat :=
  c.tokens.length

/-- The next token. -/
def peek? (c : Cursor) : Option Token :=
  c.tokens.head?.map (·.token)

/-- The span of the next token, or the end of the source. -/
def here (c : Cursor) : Span :=
  match c.tokens with
  | [] => c.finish
  | t :: _ => t.span

/-- Behind a token with span `span` that leaves `rest`. -/
def past (c : Cursor) (span : Span) (rest : List Lexeme) : Cursor :=
  { c with tokens := rest, last := span }

/-- One level further in. -/
def deeper (c : Cursor) : Cursor :=
  { c with level := c.level + 1 }

/-- The same place, seen from the given level. -/
def atLevel (c : Cursor) (level : Nat) : Cursor :=
  { c with level := level }

/-- The error of a level beyond the limit. -/
def tooDeep (c : Cursor) (limit : Nat) : ParseError :=
  ⟨.tooDeep limit, c.here⟩

/-- The error of finding anything but what is wanted. -/
def unexpected (c : Cursor) (wanted : Wanted) : ParseError :=
  ⟨.expected wanted c.peek?, c.here⟩

/-- A statement ends at a semicolon and at the end of the tokens. -/
def atStatementEnd (c : Cursor) : Bool :=
  match c.peek? with
  | none | some (.symbol .semicolon) => true
  | _ => false

/-- What a recursion of the grammar spends: first tokens, then, while none is
    read, the ranks of its functions. -/
def weight (c : Cursor) (rank : Nat) : Nat :=
  16 * c.remaining + rank

@[simp] theorem tokens_past (c : Cursor) (s : Span) (rest : List Lexeme) :
    (c.past s rest).tokens = rest := rfl

/-- Reading a token leaves fewer. -/
theorem past_lt {c : Cursor} {t : Lexeme} {rest : List Lexeme} (s : Span)
    (h : c.tokens = t :: rest) : (c.past s rest).remaining < c.remaining := by
  unfold remaining
  rw [h]
  exact Nat.lt_succ_self _

/-- Reading two tokens leaves fewer. -/
theorem past_lt_of_two {c : Cursor} {t u : Lexeme} {rest : List Lexeme} (s : Span)
    (h : c.tokens = t :: u :: rest) : (c.past s rest).remaining < c.remaining := by
  unfold remaining
  rw [h]
  exact Nat.lt_succ_of_lt (Nat.lt_succ_self _)

/-- With fewer tokens left the weight is less, whatever the ranks up to 15. -/
theorem weight_lt {a b : Cursor} (h : a.remaining < b.remaining) {j : Nat} (hj : j < 16)
    (k : Nat) : a.weight j < b.weight k := by
  unfold weight
  omega

/-- At the same place the weight is less for a lower rank. -/
theorem weight_lt_of_rank (c : Cursor) {j k : Nat} (h : j < k) : c.weight j < c.weight k :=
  Nat.add_lt_add_left h _

end Cursor

/-! ## Results -/

/-- A value that was read, and the cursor behind it. -/
structure Parsed (c : Cursor) (α : Type) where
  value : α
  next : Cursor
  moved : next.remaining < c.remaining

/-- A value for which nothing need have been read. -/
structure Reached (c : Cursor) (α : Type) where
  value : α
  next : Cursor
  kept : next.remaining ≤ c.remaining

/-- A value for which nothing was read. -/
def Reached.here {α : Type} (value : α) (c : Cursor) : Reached c α :=
  ⟨value, c, Nat.le_refl _⟩

/-- Read the given symbol. -/
def Cursor.eat (c : Cursor) (sign : Symbol) : Except ParseError (Parsed c Span) :=
  match h : c.tokens with
  | ⟨.symbol s, span⟩ :: rest =>
    if s = sign then .ok ⟨span, c.past span rest, Cursor.past_lt span h⟩
    else .error (c.unexpected (.symbol sign))
  | _ => .error (c.unexpected (.symbol sign))

end Grammar
end ScopeScript
