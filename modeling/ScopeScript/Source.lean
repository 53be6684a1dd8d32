/-
  ScopeScript.Source

  Source texts: how bytes become a text, a text tokens, and tokens a program,
  and what can be wrong at each step.
-/
import ScopeScript.Token.Scan
import ScopeScript.Grammar.Program

namespace ScopeScript

/-- Why there is no source text. -/
inductive ReadFault where
  /-- There is no such file. -/
  | missing
  /-- The bytes are not a text in UTF-8. -/
  | notText
  /-- Another cause, in the words of the system. -/
  | other (message : String)
deriving DecidableEq

def ReadFault.message : ReadFault → String
  | missing => "No such file or directory (os error 2)"
  | notText => "stream did not contain valid UTF-8"
  | other message => message

/-- The text that bytes hold. -/
def sourceText (bytes : List UInt8) : Except ReadFault String :=
  match String.fromUTF8? (ByteArray.mk bytes.toArray) with
  | some s => .ok s
  | none => .error .notText

/-- What keeps a source text from becoming a program. -/
inductive SourceError where
  | lexer (message : String) (span : Span)
  | parser (message : String) (span : Span)
  | io (message : String)
deriving DecidableEq

namespace SourceError

def ofScan (e : ScanError) : SourceError :=
  lexer e.fault.message e.span

def ofParse (e : Grammar.ParseError) : SourceError :=
  parser e.fault.message e.span

def ofRead (f : ReadFault) : SourceError :=
  io f.message

def message : SourceError → String
  | lexer m _ | parser m _ | io m => m

def span? : SourceError → Option Span
  | lexer _ s | parser _ s => some s
  | io _ => none

/-- The step that failed, as reports call it. -/
def stage : SourceError → String
  | lexer _ _ => "Lexer"
  | parser _ _ => "Parser"
  | io _ => "IO"

/-- The line that shows the error where no source is at hand. -/
def text (e : SourceError) : String :=
  match e.span? with
  | some s => e.stage ++ " error at " ++ s.text ++ ": " ++ e.message
  | none => e.stage ++ " error: " ++ e.message

end SourceError

/-- The program that a source text spells, with at most `limit` levels of
    nesting. -/
def Program.ofSource (limit : Nat) (source : String) : Except SourceError Program :=
  match tokenize source with
  | .error e => .error (.ofScan e)
  | .ok tokens =>
    match Program.ofLexemes limit source.utf8ByteSize tokens with
    | .error e => .error (.ofParse e)
    | .ok p => .ok p

theorem Program.ofSource_eq_ok_iff {limit : Nat} {source : String} {p : Program} :
    Program.ofSource limit source = .ok p ↔ ∃ tokens, tokenize source = .ok tokens ∧
      Grammar.statementsFrom limit (.start source.utf8ByteSize tokens) [] = .ok p.statements := by
  rw [ofSource]
  cases tokenize source with
  | error e => simp
  | ok tokens =>
    simp only [ofLexemes, Except.ok.injEq, exists_eq_left']
    cases Grammar.statementsFrom limit (.start source.utf8ByteSize tokens) [] with
    | error e => simp [Except.map]
    | ok statements => cases p; simp [Except.map]

end ScopeScript
