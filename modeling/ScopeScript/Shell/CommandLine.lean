/-
  ScopeScript.Shell.CommandLine

  The command line: `run [--max-depth N] FILE` prints the value of each
  statement of a file, `tokens FILE` its tokens, `parse FILE` its syntax tree as
  a JSON document, and `repl` starts the interactive loop. Arguments of another
  form end with status 2, a reported error with status 1.
-/
import ScopeScript.Shell
import ScopeScript.Expr.Json

namespace ScopeScript
namespace CommandLine

/-! ## Arguments -/

/-- What is asked of a file. -/
inductive Task where
  | run (limit : Nat)
  | parse
  | tokens
deriving DecidableEq

inductive Invocation where
  | onFile (task : Task) (file : String)
  | repl
deriving DecidableEq

/-- A nesting limit: decimal digits, a plus sign before them allowed, below
    `2 ^ 64`. -/
def limit? (text : String) : Option Nat :=
  let digits :=
    match text.toList with
    | '+' :: rest => rest
    | cs => cs
  if digits.isEmpty || !digits.all Char.isDigit then none
  else
    let n := Scan.digitsValue digits
    if n < 0x10000000000000000 then some n else none

/-- The arguments of `run` after those seen so far: the limit given and the
    file. -/
def runArguments? (limit : Option Nat) (file : Option String) :
    List String → Option Invocation
  | [] => file.map fun f => .onFile (.run (limit.getD defaultLimit)) f
  | "--max-depth" :: text :: rest =>
    match limit, limit? text with
    | none, some n => runArguments? (some n) file rest
    | _, _ => none
  | argument :: rest =>
    if argument.startsWith "-" || file.isSome then none
    else runArguments? limit (some argument) rest

/-- The invocation that arguments spell. -/
def Invocation.ofArguments? : List String → Option Invocation
  | "run" :: rest => runArguments? none none rest
  | ["parse", file] => if file.startsWith "-" then none else some (.onFile .parse file)
  | ["tokens", file] => if file.startsWith "-" then none else some (.onFile .tokens file)
  | ["repl"] => some .repl
  | _ => none

/-! ## Work on a file -/

/-- The exit status, and what was shown. -/
structure Outcome where
  status : Nat
  transcript : Transcript
deriving DecidableEq

def Outcome.success (t : Transcript) : Outcome := ⟨0, t⟩

def Outcome.failure (t : Transcript) : Outcome := ⟨1, t⟩

/-- The outcome of arguments that ask for nothing. -/
def Outcome.misuse : Outcome := ⟨2, .empty⟩

/-- One line of a token listing. -/
def tokenLine (l : Lexeme) : String :=
  l.token.listing ++ " @ " ++ l.span.text

/-- Work on the text of a file. -/
def onSource (task : Task) (file source : String) : Outcome :=
  let failed (e : SourceError) : Outcome := .failure (.diagnosed file source (.ofSource e))
  match task with
  | .run limit =>
    let (_, t, fine) := (Session.new limit).runSource file limit source
    if fine then .success t else .failure t
  | .parse =>
    match Program.ofSource defaultLimit source with
    | .ok p => .success (.printed [p.toJson.indented 0])
    | .error e => failed e
  | .tokens =>
    match tokenize source with
    | .ok tokens => .success (.printed (tokens.map tokenLine))
    | .error e => failed (.ofScan e)

/-- Work on a file that was read or could not be. -/
def onFile (task : Task) (file : String) (source : Except ReadFault String) : Outcome :=
  match source with
  | .ok text => onSource task file text
  | .error f => .failure (.diagnosed file "" (.ofSource (.ofRead f)))

end CommandLine
end ScopeScript
