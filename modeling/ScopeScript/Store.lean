/-
  ScopeScript.Store

  The scopes of a session as a stack of frames. Frame 0 is the host's; names are
  never looked up there. Frame 1 is the global scope, and each frame above it is
  a nested one, the newest last. The host's frame and the global one are always
  there.
-/
import ScopeScript.Value

namespace ScopeScript

structure Store where
  host : Object
  global : Object
  /-- The nested scopes, oldest first. -/
  nested : List Object
deriving Inhabited

namespace Store

/-- No scopes but the two that are always there, and nothing bound. -/
def empty : Store := ⟨[], [], []⟩

/-- All frames, oldest first. -/
def frames (s : Store) : List Object :=
  s.host :: s.global :: s.nested

/-- The number of frames. -/
def depth (s : Store) : Nat :=
  s.nested.length + 2

/-- The newest frame. -/
def current (s : Store) : Object :=
  s.nested.getLastD s.global

/-- Open a nested scope. -/
def descend (s : Store) : Store :=
  { s with nested := s.nested ++ [[]] }

/-- Leave the newest nested scope; its bindings are gone. -/
def ascend (s : Store) : Except RuntimeFault Store :=
  if s.nested.isEmpty then .error (.invalidState "cannot ascend past the global scope")
  else .ok { s with nested := s.nested.dropLast }

/-- Leave all nested scopes and forget the global bindings. The host's stay. -/
def reset (s : Store) : Store :=
  { s with global := [], nested := [] }

/-- The index of the last frame in a list that binds a key, where the first one
    has the index `first`. -/
def lastBinding? (key : Primitive) : List Object → Nat → Option Nat
  | [], _ => none
  | f :: rest, first =>
    (lastBinding? key rest (first + 1)).or (if f.contains key then some first else none)

/-- The newest frame above the host's that binds a key. -/
def find? (s : Store) (key : Primitive) : Option Nat :=
  lastBinding? key (s.global :: s.nested) 1

/-- What one frame binds a key to. -/
def binding? (s : Store) (frame : Nat) (key : Primitive) : Option Value :=
  s.frames[frame]?.bind (Object.get? · key)

/-- What the newest frame that binds a key binds it to. -/
def lookup? (s : Store) (key : Primitive) : Option Value :=
  (s.find? key).bind fun frame => s.binding? frame key

/-- Change one frame. -/
def modifyFrame (s : Store) (frame : Nat) (change : Object → Object) : Store :=
  match frame with
  | 0 => { s with host := change s.host }
  | 1 => { s with global := change s.global }
  | n + 2 => { s with nested := s.nested.modify n change }

/-- Bind a key in one frame. -/
def bind (s : Store) (frame : Nat) (key : Primitive) (value : Value) : Store :=
  s.modifyFrame frame fun f => Object.insert f key value

/-- Bind a key in the newest frame. -/
def define (s : Store) (key : Primitive) (value : Value) : Store :=
  s.bind (s.depth - 1) key value

/-! ## The number of frames -/

theorem length_frames (s : Store) : s.frames.length = s.depth := rfl

@[simp] theorem depth_modifyFrame (s : Store) (frame : Nat) (change : Object → Object) :
    (s.modifyFrame frame change).depth = s.depth := by
  unfold modifyFrame depth
  split <;> simp

@[simp] theorem depth_bind (s : Store) (frame : Nat) (key : Primitive) (value : Value) :
    (s.bind frame key value).depth = s.depth :=
  depth_modifyFrame ..

@[simp] theorem depth_define (s : Store) (key : Primitive) (value : Value) :
    (s.define key value).depth = s.depth :=
  depth_modifyFrame ..

end Store

end ScopeScript
