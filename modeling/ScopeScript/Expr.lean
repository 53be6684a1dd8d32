/-
  ScopeScript.Expr

  Syntax trees. Every node carries the span of the source it was read from. A
  storage location is named by an address: a list of key expressions of which
  the first is looked up in the scopes and each further one in the container
  found so far. The empty address, which no source text has, names the current
  scope itself. Increment, decrement and compound assignment have no node of
  their own; they are assignments of a binary operation.
-/
import ScopeScript.Span
import ScopeScript.Double

namespace ScopeScript

/-! ## Operators -/

inductive BinaryOp where
  | add | sub | mul | div | mod | pow
  | eq | ne | lt | gt | le | ge
deriving DecidableEq

namespace BinaryOp

def all : List BinaryOp :=
  [add, sub, mul, div, mod, pow, eq, ne, lt, gt, le, ge]

/-- How the operator is written in source texts and messages. -/
def spelling : BinaryOp → String
  | add => "+"
  | sub => "-"
  | mul => "*"
  | div => "/"
  | mod => "%"
  | pow => "**"
  | eq => "=="
  | ne => "!="
  | lt => "<"
  | gt => ">"
  | le => "<="
  | ge => ">="

/-- The operator's name in JSON documents. -/
def label : BinaryOp → String
  | add => "Add"
  | sub => "Sub"
  | mul => "Mul"
  | div => "Div"
  | mod => "Mod"
  | pow => "Pow"
  | eq => "Eq"
  | ne => "Ne"
  | lt => "Lt"
  | gt => "Gt"
  | le => "Le"
  | ge => "Ge"

def ofLabel? (label : String) : Option BinaryOp :=
  all.find? (·.label = label)

@[simp] theorem ofLabel?_label (op : BinaryOp) : ofLabel? op.label = some op := by
  cases op <;> decide

/-- Whether the operator compares its operands. -/
def isComparison : BinaryOp → Bool
  | eq | ne | lt | gt | le | ge => true
  | _ => false

end BinaryOp

/-! ## Trees -/

inductive Expr where
  | int (span : Span) (value : Int32)
  | double (span : Span) (value : Double)
  | string (span : Span) (value : String)
  /-- The value at an address. -/
  | read (span : Span) (address : List Expr)
  /-- Assignment to an address. With `yieldsOld` its value is the one the
      location held before. -/
  | assign (span : Span) (target : List Expr) (value : Expr) (yieldsOld : Bool)
  | binary (span : Span) (op : BinaryOp) (left right : Expr)
  | list (span : Span) (elements : List Expr)
  | object (span : Span) (entries : List (Expr × Expr))
  /-- A function call. The grammar has it; nothing evaluates it. -/
  | call (span : Span) (callee : List Expr) (arguments : List Expr)
deriving Inhabited

namespace Expr

/-- The source range of a tree. -/
def span : Expr → Span
  | int s _ | double s _ | string s _ | read s _ | assign s _ _ _ | binary s _ _ _
  | list s _ | object s _ | call s _ _ => s

/-- The same tree at another source range; its parts stay where they are. -/
def withSpan (s : Span) : Expr → Expr
  | int _ n => int s n
  | double _ d => double s d
  | string _ t => string s t
  | read _ a => read s a
  | assign _ t v b => assign s t v b
  | binary _ op l r => binary s op l r
  | list _ es => list s es
  | object _ ps => object s ps
  | call _ c as => call s c as

/-- What messages call a tree of this form. -/
def kind : Expr → String
  | int _ _ => "int literal"
  | double _ _ => "double literal"
  | string _ _ => "string literal"
  | read _ _ => "identifier"
  | assign _ _ _ _ => "assignment"
  | binary _ _ _ _ => "binary operation"
  | list _ _ => "list"
  | object _ _ => "object"
  | call _ _ _ => "function call"

/-- The address in a tree: the one read, assigned to, or called. -/
def address? : Expr → Option (List Expr)
  | read _ a | assign _ a _ _ | call _ a _ => some a
  | _ => none

/-- The last key of an address, and the keys of the container that has it. -/
def splitLast? (address : List Expr) : Option (Expr × List Expr) :=
  address.getLast?.map fun last => (last, address.dropLast)

@[simp] theorem span_withSpan (s : Span) (e : Expr) : (e.withSpan s).span = s := by
  cases e <;> rfl

end Expr

/-- A program is its statements in order. -/
structure Program where
  statements : List Expr
deriving Inhabited

end ScopeScript
