/-
  ScopeScript.RuntimeError

  What can go wrong while a program runs. A fault holds its cause; a runtime
  error is a fault and, once it is known, the source range of the innermost tree
  at which it arose.
-/
import ScopeScript.Span

namespace ScopeScript

/-- The kinds of faults that reports tell apart. -/
inductive FaultKind where
  | unknownIdentifier
  | unsupportedMemberAccess
  | keyNotFound
  | indexOutOfRange
  | typeMismatch
  | divisionByZero
  | unsupportedNodeKind
  | unsupportedOperator
  | invalidState
  | stackOverflow
deriving DecidableEq

inductive RuntimeFault where
  /-- No searchable scope binds the first key of an address. -/
  | unknownIdentifier (name : String)
  /-- A value of this type has no members. -/
  | unsupportedMemberAccess (type : String)
  /-- An object has no such key. -/
  | keyNotFound (key : String)
  /-- A list has no such index. -/
  | indexOutOfRange (index : String) (length : Nat)
  /-- A value is not of the type that an operation needs. -/
  | typeMismatch (expected got : String)
  /-- The divisor of a quotient or remainder is zero. -/
  | divisionByZero
  /-- Trees of this form are not evaluated. -/
  | unsupportedNodeKind (kind : String)
  /-- This operator is not evaluated. -/
  | unsupportedOperator (op : String)
  /-- The scopes do not allow the operation. -/
  | invalidState (what : String)
  /-- Trees are nested more deeply than allowed. -/
  | stackOverflow (limit : Nat)
deriving DecidableEq

namespace RuntimeFault

def kind : RuntimeFault → FaultKind
  | unknownIdentifier _ => .unknownIdentifier
  | unsupportedMemberAccess _ => .unsupportedMemberAccess
  | keyNotFound _ => .keyNotFound
  | indexOutOfRange _ _ => .indexOutOfRange
  | typeMismatch _ _ => .typeMismatch
  | divisionByZero => .divisionByZero
  | unsupportedNodeKind _ => .unsupportedNodeKind
  | unsupportedOperator _ => .unsupportedOperator
  | invalidState _ => .invalidState
  | stackOverflow _ => .stackOverflow

def message : RuntimeFault → String
  | unknownIdentifier name => "unknown identifier: " ++ name
  | unsupportedMemberAccess type => "member access is not supported on " ++ type
  | keyNotFound key => "key " ++ key ++ " not found"
  | indexOutOfRange index length =>
    "index " ++ index ++ " out of range for list of length " ++ toString length
  | typeMismatch expected got => "type mismatch: expected " ++ expected ++ ", got " ++ got
  | divisionByZero => "division by zero"
  | unsupportedNodeKind kind => kind ++ " is not supported at runtime"
  | unsupportedOperator op => "operator " ++ op ++ " is not supported at runtime"
  | invalidState what => "invalid state: " ++ what
  | stackOverflow limit =>
    "stack overflow: expression nested deeper than " ++ toString limit ++ " levels"

end RuntimeFault

/-- A fault and where it arose. -/
structure RuntimeError where
  fault : RuntimeFault
  span : Option Span
deriving DecidableEq

namespace RuntimeError

/-- The error with a span, unless it has a more precise one already. -/
def located (span : Span) (e : RuntimeError) : RuntimeError :=
  { e with span := e.span.or (some span) }

/-- The line that shows the error where no source is at hand. -/
def text (e : RuntimeError) : String :=
  "Runtime error: " ++ e.fault.message

theorem located_located (s t : Span) (e : RuntimeError) :
    (e.located s).located t = e.located s := by
  cases e with | mk fault span => cases span <;> rfl

end RuntimeError

end ScopeScript
