/-
  ScopeScript.Expr.Json

  Syntax trees as JSON documents. Trees, spans and addresses are records, which
  can also be read from an array of their fields. The node of a tree is tagged
  with its form; if it has several parts, they stand under their names, never in
  an array. An operator is its name. What cannot be written as a JSON number, an
  infinity or a NaN, becomes null, and null is not read back as a number. A
  double may be given as an integer.
-/
import ScopeScript.Expr
import ScopeScript.Json

namespace ScopeScript

/-! ## Spans and scalars -/

def Span.toJson (s : Span) : Json :=
  .object [("start", .int s.start), ("end", .int s.stop)]

namespace Json

/-- An offset fits into 64 bits. -/
def offset? : Json → Option Nat
  | int n => if 0 ≤ n ∧ n < 0x10000000000000000 then some n.toNat else none
  | _ => none

def int32? : Json → Option Int32
  | int n => if -0x80000000 ≤ n ∧ n < 0x80000000 then some (Int32.ofInt n) else none
  | _ => none

def double? : Json → Option Double
  | double d => some d
  | int n =>
    let d := Double.ofDecimal n.natAbs 0
    some (if n < 0 then d.neg else d)
  | _ => none

def string? : Json → Option String
  | string s => some s
  | _ => none

def bool? : Json → Option Bool
  | bool b => some b
  | _ => none

def span? (doc : Json) : Option Span :=
  match doc.record? ["start", "end"] with
  | some [start, stop] => do
    let start ← start.offset?
    let stop ← stop.offset?
    return ⟨start, stop⟩
  | _ => none

/-- An operator is its name, alone or as the tag of null. -/
def operator? : Json → Option BinaryOp
  | string s => BinaryOp.ofLabel? s
  | object [(s, null)] => BinaryOp.ofLabel? s
  | _ => none

end Json

/-- A double as a JSON number, if it is one. -/
def Double.toJson (d : Double) : Json :=
  if d.isFinite then .double d else .null

/-! ## Trees -/

namespace Expr

/-- A tree is the record of a tagged node and a span. -/
def record (span : Span) (tag : String) (content : Json) : Json :=
  .object [("node", .object [(tag, content)]), ("span", span.toJson)]

/-- An address is a record of its keys. -/
def addressRecord (keys : List Json) : Json :=
  .object [("address", .array keys)]

mutual

def toJson : Expr → Json
  | .int span n => record span "IntLit" (.int n.toInt)
  | .double span d => record span "DoubleLit" d.toJson
  | .string span s => record span "StringLit" (.string s)
  | .read span address => record span "Ident" (addressRecord (toJsonAll address))
  | .assign span target value yieldsOld => record span "Assign" <| .object
      [("target", addressRecord (toJsonAll target)), ("value", toJson value),
       ("return_before_assignment", .bool yieldsOld)]
  | .binary span op left right => record span "Binary" <| .object
      [("op", .string op.label), ("left", toJson left), ("right", toJson right)]
  | .list span elements => record span "List" (.array (toJsonAll elements))
  | .object span entries => record span "Object" (.array (toJsonEntries entries))
  | .call span callee arguments => record span "Call" <| .object
      [("callee", addressRecord (toJsonAll callee)), ("args", .array (toJsonAll arguments))]

def toJsonAll : List Expr → List Json
  | [] => []
  | e :: rest => toJson e :: toJsonAll rest

def toJsonEntries : List (Expr × Expr) → List Json
  | [] => []
  | (k, v) :: rest => .array [toJson k, toJson v] :: toJsonEntries rest

end

mutual

/-- The tree that a document describes. -/
def ofJson? (doc : Json) : Option Expr :=
  match _h : doc.record? ["node", "span"] with
  | some [node, span] =>
    match _h' : node.tagged?, span.span? with
    | some (tag, content), some span => ofTagged? span tag content
    | _, _ => none
  | _ => none
termination_by 2 * sizeOf doc
decreasing_by
  have := Json.sizeOf_mem_record?_lt _h node (by simp)
  have := Json.sizeOf_tagged?_lt _h'
  omega

/-- The tree whose node has the given tag and content. -/
def ofTagged? (span : Span) (tag : String) (content : Json) : Option Expr :=
  match tag with
  | "IntLit" => content.int32?.map (.int span)
  | "DoubleLit" => content.double?.map (.double span)
  | "StringLit" => content.string?.map (.string span)
  | "Ident" => (addressOfJson? content).map (.read span)
  | "Assign" =>
    match _h : content.named? ["target", "value", "return_before_assignment"] with
    | some [target, value, yieldsOld] => do
      let target ← addressOfJson? target
      let value ← ofJson? value
      let yieldsOld ← yieldsOld.bool?
      return .assign span target value yieldsOld
    | _ => none
  | "Binary" =>
    match _h : content.named? ["op", "left", "right"] with
    | some [op, left, right] => do
      let op ← op.operator?
      let left ← ofJson? left
      let right ← ofJson? right
      return .binary span op left right
    | _ => none
  | "List" =>
    match _h : content.array? with
    | some elements => (ofJsonAll? elements).map (.list span)
    | none => none
  | "Object" =>
    match _h : content.array? with
    | some entries => (ofJsonEntries? entries).map (.object span)
    | none => none
  | "Call" =>
    match _h : content.named? ["callee", "args"] with
    | some [callee, arguments] => do
      let callee ← addressOfJson? callee
      match _h' : arguments.array? with
      | some docs => (ofJsonAll? docs).map (.call span callee)
      | none => none
    | _ => none
  | _ => none
termination_by 2 * sizeOf content + 1
decreasing_by
  · omega
  · have := Json.sizeOf_mem_named?_lt _h target (by simp); omega
  · have := Json.sizeOf_mem_named?_lt _h value (by simp); omega
  · have := Json.sizeOf_mem_named?_lt _h left (by simp); omega
  · have := Json.sizeOf_mem_named?_lt _h right (by simp); omega
  · have := Json.sizeOf_array?_lt _h; omega
  · have := Json.sizeOf_array?_lt _h; omega
  · have := Json.sizeOf_mem_named?_lt _h callee (by simp); omega
  · have := Json.sizeOf_mem_named?_lt _h arguments (by simp)
    have := Json.sizeOf_array?_lt _h'
    omega

/-- The keys of an address. -/
def addressOfJson? (doc : Json) : Option (List Expr) :=
  match _h : doc.record? ["address"] with
  | some [keys] =>
    match _h' : keys.array? with
    | some docs => ofJsonAll? docs
    | none => none
  | _ => none
termination_by 2 * sizeOf doc
decreasing_by
  have := Json.sizeOf_mem_record?_lt _h keys (by simp)
  have := Json.sizeOf_array?_lt _h'
  omega

def ofJsonAll? : List Json → Option (List Expr)
  | [] => some []
  | doc :: rest => do
    let e ← ofJson? doc
    let es ← ofJsonAll? rest
    return e :: es
termination_by docs => 2 * sizeOf docs

/-- An entry of an object is an array of its key and its value. -/
def ofJsonEntries? : List Json → Option (List (Expr × Expr))
  | [] => some []
  | .array [key, value] :: rest => do
    let key ← ofJson? key
    let value ← ofJson? value
    let entries ← ofJsonEntries? rest
    return (key, value) :: entries
  | _ :: _ => none
termination_by docs => 2 * sizeOf docs

end

end Expr

/-! ## Programs -/

namespace Program

def toJson (p : Program) : Json :=
  .object [("statements", .array (Expr.toJsonAll p.statements))]

def ofJson? (doc : Json) : Option Program :=
  match doc.record? ["statements"] with
  | some [statements] => (statements.array?.bind Expr.ofJsonAll?).map Program.mk
  | _ => none

end Program

end ScopeScript
