/-
  ScopeScript.Session.Evaluate

  The meaning of syntax trees. Parts are evaluated from left to right, and the
  first error ends the evaluation. The value of an assignment is the one written
  or, where the tree asks for it, the one that was there before. Comparisons and
  calls have no meaning; a comparison fails after its operands, a call before
  its parts.
-/
import ScopeScript.Session.Target

namespace ScopeScript

/-! ## Operators -/

/-- The arithmetic of an operator that has one. -/
def BinaryOp.arithmetic? : BinaryOp → Option (Number → Number → Except RuntimeFault Number)
  | add => some fun a b => .ok (a.add b)
  | sub => some fun a b => .ok (a.sub b)
  | mul => some fun a b => .ok (a.mul b)
  | div => some Number.div
  | mod => some Number.rem
  | pow => some fun a b => .ok (a.pow b)
  | eq | ne | lt | gt | le | ge => none

/-- An operation on two values. -/
def BinaryOp.apply (op : BinaryOp) (left right : Value) : Except RuntimeFault Value :=
  match op.arithmetic? with
  | none => .error (.unsupportedOperator op.spelling)
  | some f =>
    match left.number?, right.number? with
    | some a, some b => (f a b).map Value.ofNumber
    | _, _ =>
      .error (.typeMismatch "number"
        (left.typeName ++ " " ++ op.spelling ++ " " ++ right.typeName))

/-! ## Trees -/

/-- The value at an address whose keys have been evaluated. -/
def Session.readAddress (keys : List Key) : Action Value := fun s =>
  match keys with
  | [] => .ok (.object s.store.current) s
  | head :: path =>
    match Target.read s.store head path with
    | .ok v => .ok v s
    | .error e => .error e s

mutual

/-- The value of a tree. -/
def evaluate : Expr → Action Value
  | .int span n => Action.nested span do return .int n
  | .double span d => Action.nested span do return .double d
  | .string span s => Action.nested span do return .string s
  | .read span address => Action.nested span do
    let keys ← evaluateAll address
    Session.readAddress keys
  | .assign span address right yieldsOld => Action.nested span do
    let keys ← evaluateAll address
    -- The target is fixed here; what the right-hand side does cannot move it.
    let s ← get
    let (target, old) ← Action.ofExcept (Target.resolve s.store keys yieldsOld)
    let value ← evaluate right
    target.commit s.writes.length value
    return old.getD value
  | .binary span op left right => Action.nested span do
    let a ← evaluate left
    let b ← evaluate right
    Action.ofFault (op.apply a b)
  | .list span elements => Action.nested span do
    let values ← evaluateAll elements
    return .list (values.map (·.value))
  | .object span entries => Action.nested span do
    let o ← evaluateEntries [] entries
    return .object o
  | .call span _ _ => Action.nested span do
    throw ⟨.unsupportedNodeKind (Expr.call span [] []).kind, none⟩

/-- The values of trees, each with the span of its tree. -/
def evaluateAll : List Expr → Action (List Key)
  | [] => return []
  | e :: rest => do
    let v ← evaluate e
    let values ← evaluateAll rest
    return ⟨v, e.span⟩ :: values

/-- An object with the entries that pairs of trees give it one after another. -/
def evaluateEntries (o : Object) : List (Expr × Expr) → Action Object
  | [] => return o
  | (key, value) :: rest => do
    let k ← evaluate key
    let k ← Action.ofExcept (Value.atKey ⟨k, key.span⟩ k.toKey)
    let v ← evaluate value
    evaluateEntries (o.insert k v) rest

end

/-! ## Programs -/

/-- The values of trees evaluated one after another, up to the first error. -/
def evaluateStatements : List Expr → Action (List Value)
  | [] => return []
  | e :: rest => do
    let v ← evaluate e
    let values ← evaluateStatements rest
    return v :: values

/-- The values of the statements of a program. -/
def Program.run (p : Program) : Action (List Value) :=
  evaluateStatements p.statements

end ScopeScript
