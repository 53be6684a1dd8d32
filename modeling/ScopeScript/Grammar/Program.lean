/-
  ScopeScript.Grammar.Program

  The grammar of programs:

    program    := (';' | statement)*
    statement  := '@' (expression (',' expression)*)? | expression

  A statement that begins with a reserved word is an error. `@ a, b` stands for
  a call of the built-in `print`; it must be followed by a semicolon or the end
  of the source, and takes no comma after its last argument.
-/
import ScopeScript.Grammar.Expression
import ScopeScript.Builtin

namespace ScopeScript
namespace Grammar

/-- The further arguments of a print statement, each after a comma. -/
def printedAfterComma (limit : Nat) (c : Cursor) :
    Except ParseError (Reached c (List Expr)) :=
  match h : c.tokens with
  | ⟨.symbol .comma, span⟩ :: rest => do
    let first ← expression limit (c.past span rest)
    let others ← printedAfterComma limit first.next
    return ⟨first.value :: others.value, others.next, Nat.le_trans others.kept
      (Nat.le_of_lt (Nat.lt_trans first.moved (Cursor.past_lt span h)))⟩
  | _ => return .here [] c
termination_by c.remaining
decreasing_by exact Nat.lt_trans first.moved (Cursor.past_lt span h)

/-- The arguments of a print statement. -/
def printed (limit : Nat) (c : Cursor) : Except ParseError (Reached c (List Expr)) :=
  if c.atStatementEnd then return .here [] c
  else do
    let first ← expression limit c
    let others ← printedAfterComma limit first.next
    return ⟨first.value :: others.value, others.next,
      Nat.le_trans others.kept (Nat.le_of_lt first.moved)⟩

/-- The tree of a print statement: a read of what the built-in's call names. -/
def printing (sign : Span) (span : Span) (arguments : List Expr) : Expr :=
  .read span [.call span (Builtin.address "print" sign) arguments]

def statement (limit : Nat) (c : Cursor) : Except ParseError (Parsed c Expr) :=
  match h : c.tokens with
  | ⟨.keyword k, span⟩ :: _ => .error ⟨.reserved k, span⟩
  | ⟨.symbol .atSign, span⟩ :: rest => do
    let arguments ← printed limit (c.past span rest)
    if arguments.next.atStatementEnd then
      return ⟨printing span (span.merge arguments.next.last) arguments.value, arguments.next,
        Nat.lt_of_le_of_lt arguments.kept (Cursor.past_lt span h)⟩
    else .error (arguments.next.unexpected .endOfPrint)
  | _ => expression limit c

/-- The statements from the cursor to the end of the tokens, after those in
    `found`, which stand there last one first. -/
def statementsFrom (limit : Nat) (c : Cursor) (found : List Expr) :
    Except ParseError (List Expr) :=
  match _h : c.tokens with
  | [] => .ok found.reverse
  | ⟨.symbol .semicolon, span⟩ :: rest => statementsFrom limit (c.past span rest) found
  | _ => do
    let s ← statement limit c
    statementsFrom limit s.next (s.value :: found)
termination_by c.remaining
decreasing_by
  · exact Cursor.past_lt span _h
  · exact s.moved

end Grammar

/-- The greatest nesting that a source text may have unless told otherwise. -/
def defaultLimit : Nat := 10000

/-- The program that the tokens of a source of `size` bytes spell, if they nest
    at most `limit` levels. -/
def Program.ofLexemes (limit size : Nat) (tokens : List Lexeme) :
    Except Grammar.ParseError Program :=
  (Grammar.statementsFrom limit (.start size tokens) []).map Program.mk

end ScopeScript
