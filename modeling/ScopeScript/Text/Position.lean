/-
  ScopeScript.Text.Position

  Places in a source text, in bytes and as lines and columns. A line ends after
  a line feed, a carriage return (alone or before a line feed), a vertical tab,
  a form feed, or one of U+0085, U+2028 and U+2029. The end of the text belongs
  to the last line, so a line end at the very end opens no further line.
-/

namespace ScopeScript
namespace Text

/-- How many bytes the characters take in UTF-8. -/
def byteLength : List Char → Nat
  | [] => 0
  | c :: cs => c.utf8Size + byteLength cs

/-- A line and a column, both counted from one. -/
structure Position where
  line : Nat
  column : Nat
deriving DecidableEq

/-- Whether a line ends after `c` when `rest` follows it. -/
def endsLine (c : Char) (rest : List Char) : Bool :=
  match c, rest with
  | '\r', '\n' :: _ => false
  | _, _ =>
    c = '\n' || c = '\r' || c.toNat = 0x0B || c.toNat = 0x0C || c.toNat = 0x85 ||
      c.toNat = 0x2028 || c.toNat = 0x2029

/-- The place `n` characters after the place `here`, at which the text `cs`
    begins. -/
def Position.advance (here : Position) : Nat → List Char → Position
  | 0, _ => here
  | _ + 1, [] => here
  | n + 1, c :: rest =>
    -- A line end with nothing behind it counts as one more column.
    if endsLine c rest && !rest.isEmpty then
      Position.advance ⟨here.line + 1, 1⟩ n rest
    else
      Position.advance ⟨here.line, here.column + 1⟩ n rest

/-- The place of the character with the given index. -/
def positionOf (cs : List Char) (index : Nat) : Position :=
  Position.advance ⟨1, 1⟩ index cs

/-- The written form, `line:column`. -/
def Position.text (p : Position) : String :=
  toString p.line ++ ":" ++ toString p.column

/-! ## Byte lengths -/

@[simp] theorem byteLength_append (a b : List Char) :
    byteLength (a ++ b) = byteLength a + byteLength b := by
  induction a with
  | nil => simp [byteLength]
  | cons c a ih => simp [byteLength, ih, Nat.add_assoc]

end Text
end ScopeScript
