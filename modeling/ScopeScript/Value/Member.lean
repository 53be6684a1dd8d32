/-
  ScopeScript.Value.Member

  Members of values, and paths of them. An object has a member for each of its
  keys, a list one for each of its indices; primitives have none. Writing adds
  members to objects but not to lists. A member can also be opened, to be changed
  where it is. `walk` follows a path of keys to read what it reaches, `cellAt` opens
  it, and `updateAt` changes it.
-/
import ScopeScript.Value.Text

namespace ScopeScript

/-- The value of a key expression, and where it stood. -/
structure Key where
  value : Value
  span : Span

namespace Value

/-! ## Members -/

/-- The index that a key is in a list of the given length. -/
def index? (length : Nat) : Value → Option (Fin length)
  | primitive (.int n) =>
    if h : 0 ≤ n.toInt ∧ n.toInt.toNat < length then some ⟨n.toInt.toNat, h.2⟩ else none
  | _ => none

/-- The value that an object binds to a key. Only a primitive can be bound. -/
def readObject (entries : Object) (key : Value) : Except RuntimeFault Value :=
  match key.primitive?.bind entries.get? with
  | some v => .ok v
  | none => .error (.keyNotFound key.text)

/-- The member of a container. -/
def readMember (container key : Value) : Except RuntimeFault Value :=
  match container with
  | object entries => readObject entries key
  | list elements =>
    match index? elements.length key with
    | some i => .ok elements[i]
    | none => .error (.indexOutOfRange key.text elements.length)
  | primitive p => .error (.unsupportedMemberAccess p.typeName)

/-- What can be changed where it is: its value, and what all of it comes to with
    another value in its place. -/
structure Cell where
  value : Value
  replace : Value → Value

/-- The member of a container, to be changed in it. -/
def cell (container key : Value) : Except RuntimeFault Cell :=
  match container with
  | object entries =>
    match key.primitive? with
    | some k =>
      match Object.get? entries k with
      | some v => .ok ⟨v, fun w => object (Object.insert entries k w)⟩
      | none => .error (.keyNotFound key.text)
    | none => .error (.keyNotFound key.text)
  | list elements =>
    match index? elements.length key with
    | some i => .ok ⟨elements[i], fun w => list (elements.set i w)⟩
    | none => .error (.indexOutOfRange key.text elements.length)
  | primitive p => .error (.unsupportedMemberAccess p.typeName)

/-- Whether a member can be written, and if not, why. -/
def checkWrite (container key : Value) : Except RuntimeFault Unit :=
  match container with
  | object _ => key.toKey.map fun _ => ()
  | list elements =>
    match index? elements.length key with
    | some _ => .ok ()
    | none => .error (.indexOutOfRange key.text elements.length)
  | primitive p => .error (.unsupportedMemberAccess p.typeName)

/-- The container with a member written. -/
def writeMember (container key value : Value) : Except RuntimeFault Value :=
  match container with
  | object entries => key.toKey.map fun k => object (Object.insert entries k value)
  | list elements =>
    match index? elements.length key with
    | some i => .ok (list (elements.set i value))
    | none => .error (.indexOutOfRange key.text elements.length)
  | primitive p => .error (.unsupportedMemberAccess p.typeName)

/-! ## Paths -/

/-- A fault as an error at a key. -/
def atKey {α : Type} (key : Key) : Except RuntimeFault α → Except RuntimeError α
  | .ok a => .ok a
  | .error f => .error ⟨f, some key.span⟩

/-- The value that a path of keys reaches. -/
def walk (v : Value) : List Key → Except RuntimeError Value
  | [] => .ok v
  | k :: path => do
    let member ← atKey k (v.readMember k.value)
    member.walk path

/-- What a path of keys reaches, to be changed in the value. -/
def cellAt (v : Value) : List Key → Except RuntimeError Cell
  | [] => .ok ⟨v, id⟩
  | k :: path => do
    let outer ← atKey k (v.cell k.value)
    let inner ← outer.value.cellAt path
    return ⟨inner.value, fun w => outer.replace (inner.replace w)⟩

/-- The value with what a path reaches changed. -/
def updateAt (change : Value → Except RuntimeError Value) (v : Value) (path : List Key) :
    Except RuntimeError Value := do
  let reached ← v.cellAt path
  let changed ← change reached.value
  return reached.replace changed

end Value

end ScopeScript
