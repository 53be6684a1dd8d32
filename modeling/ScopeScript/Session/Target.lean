/-
  ScopeScript.Session.Target

  Where an assignment writes. Its target is resolved and checked before the
  right-hand side is evaluated, so a bad target changes nothing. A name is bound
  in the newest frame. A member is written into the container that the target
  named when it was resolved; if the right-hand side has replaced that container
  or one around it, the write is dropped.
-/
import ScopeScript.Session

namespace ScopeScript

/-- A resolved target. -/
inductive Target where
  /-- A name in the newest frame. -/
  | name (name : Primitive)
  /-- The member `key` of the container that `path` reaches from what `root` is
      bound to in a frame. -/
  | member (frame : Nat) (root : Primitive) (rootSpan : Span) (path : List Key) (key : Key)

namespace Target

/-- The error of an address whose first key no scope binds. -/
def unknown (head : Key) : RuntimeError :=
  ⟨.unknownIdentifier head.value.text, some head.span⟩

/-- The value at an address. -/
def read (store : Store) (head : Key) (path : List Key) : Except RuntimeError Value :=
  match head.value.primitive?.bind store.lookup? with
  | some v => v.walk path
  | none => .error (unknown head)

/-- The target of a name and, if it is wanted, the value bound to it in the
    newest frame. -/
def ofName (store : Store) (key : Key) (wantsOld : Bool) :
    Except RuntimeError (Target × Option Value) := do
  -- A missing old value is reported before a key that cannot be bound.
  let old ←
    if wantsOld then (Value.atKey key (Value.readObject store.current key.value)).map some
    else pure none
  let name ← Value.atKey key key.value.toKey
  return (.name name, old)

/-- The target of a member and, if it is wanted, the value the member has. -/
def ofMember (store : Store) (head : Key) (path : List Key) (key : Key) (wantsOld : Bool) :
    Except RuntimeError (Target × Option Value) :=
  match head.value with
  | .primitive root =>
    match store.find? root with
    | some frame =>
      match store.binding? frame root with
      | some value => do
        let container ← value.walk path
        let old ←
          if wantsOld then (Value.atKey key (container.readMember key.value)).map some
          else pure none
        Value.atKey key (container.checkWrite key.value)
        return (.member frame root head.span path key, old)
      | none => .error (unknown head)
    | none => .error (unknown head)
  | _ => .error (unknown head)

/-- The target that an address names, with the value there if it is wanted. The
    empty address is none. -/
def resolve (store : Store) (keys : List Key) (wantsOld : Bool) :
    Except RuntimeError (Target × Option Value) :=
  match keys with
  | [] => .error ⟨.invalidState "assignment to an empty address", none⟩
  | [key] => ofName store key wantsOld
  | head :: next :: rest =>
    ofMember store head (next :: rest).dropLast ((next :: rest).getLastD next) wantsOld

/-- The place of the container of a member. -/
def home (frame : Nat) (root : Primitive) (path : List Key) : Location :=
  ⟨frame, .primitive root :: path.map (·.value)⟩

/-- The writes of a session since there were `mark` of them. -/
def writesSince (mark : Nat) (s : Session) : List Location :=
  s.writes.take (s.writes.length - mark)

/-- Write to a target that was resolved when the session had made `mark`
    writes. -/
def commit (target : Target) (mark : Nat) (value : Value) : Action Unit := do
  let s ← get
  match target with
  | name key =>
    set ({ s with store := s.store.define key value }.wrote
      ⟨s.store.depth - 1, [.primitive key]⟩)
  | member frame root rootSpan path key =>
    let place := home frame root path
    -- The container that was resolved is gone: there is nothing to write to.
    if (writesSince mark s).any (·.covers place) then return ()
    else
      match s.store.binding? frame root with
      | none => throw (unknown ⟨.primitive root, rootSpan⟩)
      | some old =>
        let changed ← Action.ofExcept <| old.updateAt
          (fun container => Value.atKey key (container.writeMember key.value value)) path
        set ({ s with store := s.store.bind frame root changed }.wrote
          ⟨frame, place.keys ++ [key.value]⟩)

end Target

end ScopeScript
