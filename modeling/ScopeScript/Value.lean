/-
  ScopeScript.Value

  Values: primitives, lists and objects. An object binds primitives to values
  and lists its entries in the order in which their keys were first inserted; no
  two keys of it are equal. Equality is by kind, so the integer 1 and the double
  1.0 are different keys, while the two zeros are one key and so are all NaNs.
  Scope frames are objects too.
-/
import ScopeScript.Number
import ScopeScript.Decimal.Layout

namespace ScopeScript

/-! ## Primitives -/

/-- Values without members; the only object keys. -/
inductive Primitive where
  | int (value : Int32)
  | double (value : Double)
  | string (value : String)
deriving DecidableEq, Inhabited

namespace Primitive

def typeName : Primitive → String
  | int _ => "int"
  | double _ => "double"
  | string _ => "string"

/-- The number that a primitive is. -/
def number? : Primitive → Option Number
  | int n => some (.int n)
  | double d => some (.double d)
  | string _ => none

def ofNumber : Number → Primitive
  | .int n => int n
  | .double d => double d

/-- Equality of primitives as keys. -/
def same : Primitive → Primitive → Bool
  | int a, int b => a = b
  | double a, double b => a.same b
  | string a, string b => a = b
  | _, _ => false

/-- Whether both are of the same kind. -/
def sameKind : Primitive → Primitive → Bool
  | int _, int _ | double _, double _ | string _, string _ => true
  | _, _ => false

/-- The primitive that stands for all that are equal to this one. Tables that
    find keys by a hash take it of this one. -/
def canonical : Primitive → Primitive
  | int n => int n
  | double d => double d.canonical
  | string s => string s

/-- Overwrite a primitive. Its kind is fixed. -/
def replace (old new : Primitive) : Except RuntimeFault Primitive :=
  if old.sameKind new then .ok new else .error (.typeMismatch old.typeName new.typeName)

/-- The written form. A string stands between quotes as it is. -/
def text : Primitive → String
  | int n => intText n.toInt
  | double d => Decimal.write Decimal.shown d
  | string s => "'" ++ s ++ "'"

/-- Whether a key is written before another one: integers by value, then doubles
    in total order, then strings by their characters. -/
def precedes : Primitive → Primitive → Bool
  | int a, int b => a.toInt < b.toInt
  | int _, _ => true
  | double _, int _ => false
  | double a, double b => a.orderKey < b.orderKey
  | double _, string _ => true
  | string a, string b => a < b
  | string _, _ => false

end Primitive

/-! ## Values -/

inductive Value where
  | primitive (value : Primitive)
  | list (elements : List Value)
  | object (entries : List (Primitive × Value))
deriving Inhabited

/-- The entries of an object, in the order of insertion. -/
abbrev Object := List (Primitive × Value)

namespace Object

/-- The value that a key is bound to. -/
def get? : Object → Primitive → Option Value
  | [], _ => none
  | (k, v) :: rest, key => if k.same key then some v else get? rest key

def contains (o : Object) (key : Primitive) : Bool :=
  (o.get? key).isSome

/-- Bind a key. One that is equal to it keeps its place and its own form. -/
def insert : Object → Primitive → Value → Object
  | [], key, value => [(key, value)]
  | (k, v) :: rest, key, value =>
    if k.same key then (k, value) :: rest else (k, v) :: insert rest key value

/-- Remove the binding of a key. -/
def erase : Object → Primitive → Object
  | [], _ => []
  | (k, v) :: rest, key => if k.same key then rest else (k, v) :: erase rest key

end Object

namespace Value

def int (n : Int32) : Value := primitive (.int n)

def double (d : Double) : Value := primitive (.double d)

def string (s : String) : Value := primitive (.string s)

def ofNumber (n : Number) : Value := primitive (.ofNumber n)

def typeName : Value → String
  | primitive p => p.typeName
  | list _ => "list"
  | object _ => "object"

def primitive? : Value → Option Primitive
  | primitive p => some p
  | _ => none

def number? (v : Value) : Option Number :=
  v.primitive?.bind Primitive.number?

/-- The object key that a value is. -/
def toKey (v : Value) : Except RuntimeFault Primitive :=
  match v with
  | primitive p => .ok p
  | _ => .error (.typeMismatch "primitive object key" v.typeName)

mutual

/-- Equality of values. Objects are equal when they bind equal keys to equal
    values, in whatever order. -/
def same : Value → Value → Bool
  | primitive a, primitive b => a.same b
  | list as, list bs => sameAll as bs
  | object as, object bs => as.length = bs.length && boundAlike as bs
  | _, _ => false

def sameAll : List Value → List Value → Bool
  | [], [] => true
  | a :: as, b :: bs => same a b && sameAll as bs
  | _, _ => false

/-- Whether the second object binds each key of the first to an equal value. -/
def boundAlike : List (Primitive × Value) → Object → Bool
  | [], _ => true
  | (k, v) :: rest, o =>
    match o.get? k with
    | some w => same v w && boundAlike rest o
    | none => false

end

end Value

end ScopeScript
