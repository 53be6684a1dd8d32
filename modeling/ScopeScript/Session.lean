/-
  ScopeScript.Session

  A session: the scopes that running programs share, how many evaluations are
  under way and how many there may be, and where the current statement has
  written so far. Actions on a session keep what they did before they failed.
-/
import ScopeScript.Store
import ScopeScript.Value.Member
import ScopeScript.Builtin

namespace ScopeScript

/-! ## Storage locations -/

/-- A place in the store: a frame and the keys that lead to the place from it. -/
structure Location where
  frame : Nat
  keys : List Value

namespace Location

/-- Whether the keys begin with those of another path. -/
def startsWith : List Value → List Value → Bool
  | _, [] => true
  | [], _ :: _ => false
  | k :: path, l :: initial => k.same l && startsWith path initial

/-- Whether a write at `w` replaces what is at `p` or one of its containers. -/
def covers (w p : Location) : Bool :=
  w.frame = p.frame && startsWith p.keys w.keys

end Location

/-! ## Sessions -/

structure Session where
  store : Store
  /-- How many evaluations are under way, one inside another. -/
  depth : Nat
  /-- How many may be. -/
  limit : Nat
  /-- Where the current statement has written, the last place first. -/
  writes : List Location

/-- An action on a session with a result or a runtime error. -/
abbrev Action := EStateM RuntimeError Session

namespace Session

/-- Bind the built-in namespace in the global scope. -/
def withBuiltins (s : Store) : Store :=
  let names := Builtin.names.map fun name => (Primitive.string name, Value.string name)
  s.bind 1 (.string Builtin.root) (.object names)

/-- A session in which nothing but the built-ins is bound. -/
def new (limit : Nat) : Session :=
  ⟨withBuiltins .empty, 0, limit, []⟩

/-- Forget all that programs have bound. What the host has bound stays. -/
def reset (s : Session) : Session :=
  ⟨withBuiltins s.store.reset, 0, s.limit, []⟩

/-- One more evaluation is under way. The first one begins a statement. -/
def entered (s : Session) : Session :=
  { s with depth := s.depth + 1, writes := if s.depth = 0 then [] else s.writes }

/-- One evaluation less is under way. -/
def left (s : Session) : Session :=
  { s with depth := s.depth - 1 }

/-- Note a write. -/
def wrote (s : Session) (place : Location) : Session :=
  { s with writes := place :: s.writes }

end Session

namespace Action

/-- A result that does not depend on the session. -/
def ofExcept {α : Type} : Except RuntimeError α → Action α
  | .ok a => pure a
  | .error e => throw e

/-- A result whose fault has no span yet. -/
def ofFault {α : Type} : Except RuntimeFault α → Action α
  | .ok a => pure a
  | .error f => throw ⟨f, none⟩

/-- The evaluation of a tree with the given span: one more is under way while
    `body` runs, and an error that has no span gets this one. -/
def nested (span : Span) (body : Action Value) : Action Value := fun s =>
  if s.limit ≤ s.depth then .error ⟨.stackOverflow s.limit, some span⟩ s
  else
    match body s.entered with
    | .ok v s' => .ok v s'.left
    | .error e s' => .error (e.located span) s'.left

end Action

end ScopeScript
