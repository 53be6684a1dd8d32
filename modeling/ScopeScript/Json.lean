/-
  ScopeScript.Json

  JSON documents as values, and their indented written form. Numbers written as
  integers and numbers written with a fraction or an exponent are told apart.
  The fields of an object keep their order.
-/
import ScopeScript.Decimal.Layout

namespace ScopeScript

inductive Json where
  | null
  | bool (value : Bool)
  | int (value : Int)
  | double (value : Double)
  | string (value : String)
  | array (elements : List Json)
  | object (fields : List (String × Json))

namespace Json

/-! ## Writing -/

/-- Two hexadecimal digits. -/
def hexByte (n : Nat) : List Char :=
  [Nat.digitChar (n / 16 % 16), Nat.digitChar (n % 16)]

/-- One character of a string. -/
def escapedChar (c : Char) : List Char :=
  if c = '"' then ['\\', '"']
  else if c = '\\' then ['\\', '\\']
  else if c = '\n' then ['\\', 'n']
  else if c = '\r' then ['\\', 'r']
  else if c = '\t' then ['\\', 't']
  else if c.toNat = 0x08 then ['\\', 'b']
  else if c.toNat = 0x0C then ['\\', 'f']
  else if c.toNat < 0x20 then '\\' :: 'u' :: '0' :: '0' :: hexByte c.toNat
  else [c]

/-- A string between double quotes. -/
def quoted (s : String) : String :=
  String.ofList ('"' :: (s.toList.flatMap escapedChar ++ ['"']))

/-- A line feed and the indentation of the given depth. -/
def newline (depth : Nat) : String :=
  String.ofList ('\n' :: List.replicate (2 * depth) ' ')

mutual

/-- The indented form of a document, `depth` levels inside another one. There is
    no JSON for infinities and NaNs; they are written as null. -/
def indented (depth : Nat) : Json → String
  | null => "null"
  | bool b => if b then "true" else "false"
  | int n => intText n
  | double d => if d.isFinite then Decimal.write Decimal.json d else "null"
  | string s => quoted s
  | array [] => "[]"
  | array (j :: rest) =>
    "[" ++ newline (depth + 1) ++ indented (depth + 1) j ++ indentedElements (depth + 1) rest ++
      newline depth ++ "]"
  | object [] => "\x7b\x7d"
  | object ((k, j) :: rest) =>
    "\x7b" ++ newline (depth + 1) ++ quoted k ++ ": " ++ indented (depth + 1) j ++
      indentedFields (depth + 1) rest ++ newline depth ++ "\x7d"

/-- Further elements of an array, each after a comma. -/
def indentedElements (depth : Nat) : List Json → String
  | [] => ""
  | j :: rest => "," ++ newline depth ++ indented depth j ++ indentedElements depth rest

/-- Further fields of an object, each after a comma. -/
def indentedFields (depth : Nat) : List (String × Json) → String
  | [] => ""
  | (k, j) :: rest =>
    "," ++ newline depth ++ quoted k ++ ": " ++ indented depth j ++ indentedFields depth rest

end

/-! ## Parts -/

/-- The value of a field. -/
def field? (name : String) : List (String × Json) → Option Json
  | [] => none
  | (k, j) :: rest => if k = name then some j else field? name rest

/-- The values of the given fields of an object, in the order of their names.
    Other fields are ignored. -/
def named? (names : List String) : Json → Option (List Json)
  | object fields => names.mapM fun name => field? name fields
  | _ => none

/-- The values of the fields of a record, in the order of their names. A record
    is an object with all of them or an array of just the values. -/
def record? (names : List String) : Json → Option (List Json)
  | array elements => if elements.length = names.length then some elements else none
  | doc => doc.named? names

/-- The name and the content of a tagged value: an object with one field. -/
def tagged? : Json → Option (String × Json)
  | object [(tag, content)] => some (tag, content)
  | _ => none

def array? : Json → Option (List Json)
  | array elements => some elements
  | _ => none

/-! ## Parts are smaller -/

theorem sizeOf_field?_lt {name : String} {fields : List (String × Json)} {j : Json}
    (h : field? name fields = some j) : sizeOf j < sizeOf fields := by
  induction fields with
  | nil => simp [field?] at h
  | cons f rest ih =>
    obtain ⟨k, v⟩ := f
    simp only [field?] at h
    split at h
    · obtain rfl := Option.some.inj h
      simp only [List.cons.sizeOf_spec, Prod.mk.sizeOf_spec]; omega
    · have := ih h
      simp only [List.cons.sizeOf_spec]; omega

theorem sizeOf_mem_mapM_field?_lt {fields : List (String × Json)} :
    ∀ {names : List String} {js : List Json},
      (names.mapM fun name => field? name fields) = some js →
      ∀ j ∈ js, sizeOf j < sizeOf fields
  | [], js, h, j, hj => by simp_all
  | name :: names, js, h, j, hj => by
    simp only [List.mapM_cons, Option.bind_eq_bind, Option.bind_eq_some_iff] at h
    obtain ⟨v, hv, vs, hvs, h⟩ := h
    obtain rfl : v :: vs = js := by simpa using h
    rcases List.mem_cons.1 hj with rfl | hj
    · exact sizeOf_field?_lt hv
    · exact sizeOf_mem_mapM_field?_lt hvs j hj

theorem sizeOf_mem_named?_lt {names : List String} {doc : Json} {js : List Json}
    (h : doc.named? names = some js) : ∀ j ∈ js, sizeOf j < sizeOf doc := by
  intro j hj
  cases doc with
  | object fields =>
    have := sizeOf_mem_mapM_field?_lt h j hj
    simp only [object.sizeOf_spec]; omega
  | _ => simp [named?] at h

theorem sizeOf_mem_record?_lt {names : List String} {doc : Json} {js : List Json}
    (h : doc.record? names = some js) : ∀ j ∈ js, sizeOf j < sizeOf doc := by
  intro j hj
  cases doc with
  | object fields =>
    have h : named? names (object fields) = some js := h
    exact sizeOf_mem_named?_lt h j hj
  | array elements =>
    simp only [record?] at h
    split at h
    · obtain rfl := Option.some.inj h
      have := List.sizeOf_lt_of_mem hj
      simp only [array.sizeOf_spec]; omega
    · simp at h
  | _ => simp [record?, named?] at h

theorem sizeOf_tagged?_lt {doc content : Json} {tag : String}
    (h : doc.tagged? = some (tag, content)) : sizeOf content < sizeOf doc := by
  unfold tagged? at h
  split at h
  · obtain ⟨rfl, rfl⟩ := Prod.mk.inj (Option.some.inj h)
    simp only [object.sizeOf_spec, List.cons.sizeOf_spec, Prod.mk.sizeOf_spec]; omega
  · simp at h

theorem sizeOf_array?_lt {doc : Json} {js : List Json} (h : doc.array? = some js) :
    sizeOf js < sizeOf doc := by
  unfold array? at h
  split at h
  · obtain rfl := Option.some.inj h
    simp only [array.sizeOf_spec]; omega
  · simp at h

end Json

end ScopeScript
