/-
  ScopeScript.Value.Text

  The written form of values. List elements stand in order between brackets,
  object entries between braces in the order of their keys. Strings are not
  escaped, so a text with a quote in it does not read back.
-/
import ScopeScript.Value

namespace ScopeScript

/-- Entries in the order in which they are written. -/
def Object.inOrder {α : Type} (entries : List (Primitive × α)) : List (Primitive × α) :=
  entries.mergeSort fun a b => !b.1.precedes a.1

namespace Value

mutual

/-- The written form of a value. -/
def text : Value → String
  | primitive p => p.text
  | list elements => "[ " ++ String.intercalate ", " (texts elements) ++ " ]"
  | object entries =>
    let written := (Object.inOrder (entryTexts entries)).map fun e => e.1.text ++ ": " ++ e.2
    "\x7b " ++ String.intercalate ", " written ++ " \x7d"

/-- The written forms of the elements of a list. -/
def texts : List Value → List String
  | [] => []
  | v :: rest => text v :: texts rest

/-- The keys of an object with the written forms of their values. -/
def entryTexts : List (Primitive × Value) → List (Primitive × String)
  | [] => []
  | (k, v) :: rest => (k, text v) :: entryTexts rest

end

end Value

end ScopeScript
