/-
  ScopeScript.Token.Scan

  From source text to tokens by longest match. At each place the text begins
  with a gap (white space or a comment up to the end of its line), with a token,
  or with an error. `Munch` records how such a piece splits the text: what it
  is, its characters, and the rest. Since the split is part of the type, nothing
  of the text is lost and every piece moves on.
-/
import ScopeScript.Token
import ScopeScript.Text.Position

namespace ScopeScript

/-! ## Errors -/

/-- Why a text has no tokens. -/
inductive ScanFault where
  /-- A string has no closing quote. -/
  | unterminatedString
  /-- An integer literal is above the largest integer. -/
  | intOutOfRange (digits : String)
  /-- No token begins with the character. -/
  | unexpected (c : Char)
deriving DecidableEq

def ScanFault.message : ScanFault → String
  | unterminatedString => "unterminated string literal"
  | intOutOfRange digits => "integer literal out of range: " ++ digits
  | unexpected c => "unexpected character: " ++ Text.quoted (String.ofList [c])

/-- A fault and the bytes at which it was found. -/
structure ScanError where
  fault : ScanFault
  span : Span
deriving DecidableEq

namespace Scan

/-! ## Character classes -/

def isGap (c : Char) : Bool :=
  c = ' ' || c = '\t' || c = '\n' || c = '\r' || c.toNat = 0x0C

def isNameStart (c : Char) : Bool :=
  c.isAlpha || c = '_'

def isNamePart (c : Char) : Bool :=
  c.isAlphanum || c = '_'

/-! ## Pieces of text -/

/-- What a piece of text is. -/
inductive Piece where
  | gap
  | token (token : Token)
  | fault (fault : ScanFault)
deriving DecidableEq

/-- A piece at the start of a text, its characters, and what follows it. -/
structure Munch (source : List Char) where
  piece : Piece
  text : List Char
  rest : List Char
  split : source = text ++ rest
  moved : text ≠ []

/-- The first `n` characters as a piece; at least one is taken. -/
def Munch.first {c : Char} {cs : List Char} (piece : Piece) (n : Nat) : Munch (c :: cs) where
  piece := piece
  text := c :: cs.take (n - 1)
  rest := cs.drop (n - 1)
  split := by simp
  moved := by simp

theorem Munch.length_rest {source : List Char} (m : Munch source) :
    m.rest.length < source.length := by
  have h := congrArg List.length m.split
  have := List.length_pos_iff.2 m.moved
  simp only [List.length_append] at h
  omega

/-! ## Literals -/

/-- The number that decimal digits denote. -/
def digitsValue (digits : List Char) : Nat :=
  digits.foldl (fun n c => 10 * n + (c.toNat - '0'.toNat)) 0

/-- An integer literal must not be above `2 ^ 31 - 1`. -/
def intPiece (digits : List Char) : Piece :=
  let n := digitsValue digits
  if n < 0x80000000 then .token (.int (Int32.ofInt n))
  else .fault (.intOutOfRange (String.ofList digits))

/-- A double literal has digits before its point, and may have some after it. -/
def doublePiece (whole decimals : List Char) : Piece :=
  .token (.double (Double.ofDecimal (digitsValue (whole ++ decimals)) (-(decimals.length : Int))))

/-- How far a string reaches after its opening quote. -/
inductive Reach where
  | closed (length : Nat)
  | unclosed (length : Nat)
deriving DecidableEq

/-- Count up to and with the closing quote. A backslash takes the next character
    with it; at a line feed and at the end of the text there is none to take. -/
def reach (quote : Char) : List Char → Nat → Reach
  | [], n => .unclosed n
  | ['\\'], n => .unclosed n
  | '\\' :: c :: rest, n => if c = '\n' then .unclosed n else reach quote rest (n + 2)
  | c :: rest, n => if c = quote then .closed (n + 1) else reach quote rest (n + 1)

/-- The characters that the inside of a string stands for. After a backslash,
    `n` and `t` are the line feed and the tab, and any other character is
    itself. -/
def unescape : List Char → List Char
  | [] => []
  | ['\\'] => ['\\']
  | '\\' :: c :: rest =>
    (if c = 'n' then '\n' else if c = 't' then '\t' else c) :: unescape rest
  | c :: rest => c :: unescape rest

def stringPiece (inside : List Char) : Piece :=
  .token (.string (String.ofList (unescape inside)))

def wordPiece (word : List Char) : Piece :=
  match Keyword.ofSpelling? (String.ofList word) with
  | some k => .token (.keyword k)
  | none => .token (.name (String.ofList word))

/-! ## Longest match -/

/-- The symbol with the longest spelling at the start of a text. -/
def symbolAt? (cs : List Char) : Option Symbol :=
  Symbol.longestFirst.find? fun s => s.spelling.toList.isPrefixOf cs

/-- The longest piece at the start of a text that is not empty. -/
def munch (c : Char) (cs : List Char) : Munch (c :: cs) :=
  -- A gap: white space, or a comment without the line feed that ends it.
  if isGap c then
    .first .gap (1 + (cs.takeWhile isGap).length)
  else if c = '/' && cs.head? = some '/' then
    .first .gap (1 + (cs.takeWhile (· ≠ '\n')).length)
  -- A number: a point after the digits makes it a double, even with none behind it.
  else if c.isDigit then
    let whole := c :: cs.takeWhile Char.isDigit
    match cs.dropWhile Char.isDigit with
    | '.' :: after =>
      let decimals := after.takeWhile Char.isDigit
      .first (doublePiece whole decimals) (whole.length + 1 + decimals.length)
    | _ => .first (intPiece whole) whole.length
  else if c = '"' || c = '\'' then
    match reach c cs 0 with
    | .closed n => .first (stringPiece (cs.take (n - 1))) (1 + n)
    | .unclosed n => .first (.fault .unterminatedString) (1 + n)
  -- A word: the whole of it decides whether it is reserved.
  else if isNameStart c then
    let word := c :: cs.takeWhile isNamePart
    .first (wordPiece word) word.length
  else
    match symbolAt? (c :: cs) with
    | some s => .first (.token (.symbol s)) s.spelling.length
    | none => .first (.fault (.unexpected c)) 1

/-- The tokens of a text that begins at byte `start`, after those in `found`,
    which stand there last one first. -/
def tokensFrom (start : Nat) (cs : List Char) (found : List Lexeme) :
    Except ScanError (List Lexeme) :=
  match cs with
  | [] => .ok found.reverse
  | c :: cs =>
    let m := munch c cs
    let stop := start + Text.byteLength m.text
    match m.piece with
    | .gap => tokensFrom stop m.rest found
    | .token t => tokensFrom stop m.rest (⟨t, ⟨start, stop⟩⟩ :: found)
    | .fault f => .error ⟨f, ⟨start, stop⟩⟩
termination_by cs.length
decreasing_by all_goals exact m.length_rest

end Scan

/-- The tokens of a source text, or its first error. -/
def tokenize (source : String) : Except ScanError (List Lexeme) :=
  Scan.tokensFrom 0 source.toList []

end ScopeScript
