/-
  ScopeScript.Value.Hash

  What a hash function is fed of a primitive: its kind, and then its value. Of a
  double that is the pattern that stands for all doubles equal to it, and the
  bytes of a string end with one that no string has.
-/
import ScopeScript.Value

namespace ScopeScript

/-- One piece of data fed to a hash function. -/
inductive HashInput where
  | kind (index : Nat)
  | int (value : Int32)
  | bits (pattern : UInt64)
  | bytes (data : ByteArray)
  | byte (value : UInt8)

namespace Primitive

/-- The kinds in their order. -/
def kindIndex : Primitive → Nat
  | int _ => 0
  | double _ => 1
  | string _ => 2

/-- What is fed of a primitive, in order. -/
def hashInputs (p : Primitive) : List HashInput :=
  .kind p.kindIndex ::
    match p with
    | int n => [.int n]
    | double d => [.bits d.canonical.bits]
    | string s => [.bytes s.toUTF8, .byte 0xff]

end Primitive

end ScopeScript
