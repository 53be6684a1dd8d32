/-
  ScopeScript.Proofs.Identity.Semantics

  Evaluation on a store of containers with identities, the meaning that
  assignments are to have. A target is resolved to the identity of a container
  before the right-hand side is evaluated; afterwards the member is written into
  the container with that identity, wherever it is, and nowhere if it is gone.
  No path is kept and no write is noted. Everything else is as it is without
  identities.
-/
import ScopeScript.Session.Evaluate
import ScopeScript.Proofs.Identity.Stored
import ScopeScript.Proofs.Store.Frames

namespace ScopeScript
namespace Identity

/-- A scope. -/
abbrev Frame := List (Primitive × Stored)

structure State where
  /-- All frames, oldest first. -/
  frames : List Frame
  /-- The first identity that no container has had. -/
  next : Nat
  /-- How many evaluations are under way, one inside another. -/
  depth : Nat
  /-- How many may be. -/
  limit : Nat
deriving Inhabited

/-- A computation on a store with identities. -/
abbrev Eval := EStateM RuntimeError State

/-! ## The store -/

namespace State

/-- The newest frame. -/
def current (s : State) : Frame :=
  s.frames.getLastD []

/-- What the newest frame that binds a key binds it to; the host's frame is not
    searched. -/
def lookup? (s : State) (key : Primitive) : Option Stored :=
  Store.findLast? key s.frames.tail

/-- Bind a name in the newest frame to a new copy of a value. -/
def define (s : State) (name : Primitive) (value : Value) : State :=
  let stored := Stored.fresh s.next value
  { s with
    frames := s.frames.modify (s.frames.length - 1) (Bindings.put name stored.1)
    next := stored.2 }

/-- Set a member of the container with the given identity to a new copy of a
    value. -/
def write (s : State) (container : Nat) (key value : Value) : State :=
  let stored := Stored.fresh s.next value
  { s with
    frames := s.frames.map (Stored.writeEntries container key stored.1)
    next := stored.2 }

/-- What the first key of an address names. -/
def root (s : State) (head : Key) : Except RuntimeError Stored :=
  match head.value.primitive?.bind s.lookup? with
  | some c => .ok c
  | none => .error (ScopeScript.Target.unknown head)

/-- A copy of what stands at an address. -/
def read (s : State) : List Key → Except RuntimeError Value
  | [] => .ok (.object (Stored.copyEntries s.current))
  | head :: path => do
    let root ← s.root head
    let reached ← root.walk path
    return reached.copy

end State

/-! ## Targets -/

/-- A resolved target. -/
inductive Target where
  /-- A name in the newest frame. -/
  | name (name : Primitive)
  /-- A member of the container with this identity. -/
  | member (container : Nat) (key : Value)

namespace Target

/-- The target of a name and, if it is wanted, the value bound to it in the
    newest frame. -/
def ofName (s : State) (key : Key) (wantsOld : Bool) :
    Except RuntimeError (Target × Option Value) := do
  let old ←
    if wantsOld then
      (Value.atKey key (Value.readObject (Stored.copyEntries s.current) key.value)).map some
    else pure none
  let name ← Value.atKey key key.value.toKey
  return (.name name, old)

/-- The target of a member and, if it is wanted, the value the member has. -/
def ofMember (s : State) (head : Key) (path : List Key) (key : Key) (wantsOld : Bool) :
    Except RuntimeError (Target × Option Value) := do
  let root ← s.root head
  let container ← root.walk path
  let old ←
    if wantsOld then (Value.atKey key (container.readMember key.value)).map (some ·.copy)
    else pure none
  let id ← Value.atKey key (container.writable key.value)
  return (.member id key.value, old)

/-- The target that an address names, with the value there if it is wanted. The
    empty address is none. -/
def resolve (s : State) (keys : List Key) (wantsOld : Bool) :
    Except RuntimeError (Target × Option Value) :=
  match keys with
  | [] => .error ⟨.invalidState "assignment to an empty address", none⟩
  | [key] => ofName s key wantsOld
  | head :: next :: rest =>
    ofMember s head (next :: rest).dropLast ((next :: rest).getLastD next) wantsOld

/-- Write to a resolved target. -/
def commit (target : Target) (value : Value) : Eval Unit := fun s =>
  match target with
  | name n => .ok () (s.define n value)
  | member container key => .ok () (s.write container key value)

end Target

/-! ## Trees -/

namespace Eval

/-- A result that does not depend on the state. -/
def ofExcept {α : Type} : Except RuntimeError α → Eval α
  | .ok a => pure a
  | .error e => throw e

/-- A result whose fault has no span yet. -/
def ofFault {α : Type} : Except RuntimeFault α → Eval α
  | .ok a => pure a
  | .error f => throw ⟨f, none⟩

/-- The evaluation of a tree with the given span. -/
def nested (span : Span) (body : Eval Value) : Eval Value := fun s =>
  if s.limit ≤ s.depth then .error ⟨.stackOverflow s.limit, some span⟩ s
  else
    match body { s with depth := s.depth + 1 } with
    | .ok v s' => .ok v { s' with depth := s'.depth - 1 }
    | .error e s' => .error (e.located span) { s' with depth := s'.depth - 1 }

end Eval

mutual

/-- The value of a tree. -/
def evaluate : Expr → Eval Value
  | .int span n => Eval.nested span do return .int n
  | .double span d => Eval.nested span do return .double d
  | .string span s => Eval.nested span do return .string s
  | .read span address => Eval.nested span do
    let keys ← evaluateAll address
    let s ← get
    Eval.ofExcept (s.read keys)
  | .assign span address right yieldsOld => Eval.nested span do
    let keys ← evaluateAll address
    -- From here on the target is a container, whatever leads to it.
    let s ← get
    let (target, old) ← Eval.ofExcept (Target.resolve s keys yieldsOld)
    let value ← evaluate right
    target.commit value
    return old.getD value
  | .binary span op left right => Eval.nested span do
    let a ← evaluate left
    let b ← evaluate right
    Eval.ofFault (op.apply a b)
  | .list span elements => Eval.nested span do
    let values ← evaluateAll elements
    return .list (values.map (·.value))
  | .object span entries => Eval.nested span do
    let o ← evaluateEntries [] entries
    return .object o
  | .call span _ _ => Eval.nested span do
    throw ⟨.unsupportedNodeKind (Expr.call span [] []).kind, none⟩

/-- The values of trees, each with the span of its tree. -/
def evaluateAll : List Expr → Eval (List Key)
  | [] => return []
  | e :: rest => do
    let v ← evaluate e
    let values ← evaluateAll rest
    return ⟨v, e.span⟩ :: values

/-- An object with the entries that pairs of trees give it one after another. -/
def evaluateEntries (o : Object) : List (Expr × Expr) → Eval Object
  | [] => return o
  | (key, value) :: rest => do
    let k ← evaluate key
    let k ← Eval.ofExcept (Value.atKey ⟨k, key.span⟩ k.toKey)
    let v ← evaluate value
    evaluateEntries (o.insert k v) rest

end

end Identity
end ScopeScript
