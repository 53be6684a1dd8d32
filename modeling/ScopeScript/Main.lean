/-
  ScopeScript.Main

  The program: it reads files and standard input, and prints what the shell
  says about them.
-/
import ScopeScript.Shell.Repl
import ScopeScript.Shell.CommandLine

namespace ScopeScript
namespace Main

/-- The text of a file, or why there is none. -/
def readSource (file : String) : IO (Except ReadFault String) := do
  try
    let bytes ← IO.FS.readBinFile file
    return sourceText bytes.toList
  catch
    | .noFileOrDirectory .. => return .error .missing
    | e => return .error (.other (toString e))

/-- Print a transcript: its output, then its reports on standard error. -/
def display (t : Transcript) : IO Unit := do
  let output ← IO.getStdout
  output.putStr t.output
  output.flush
  for r in t.reports do
    for line in r.allLines do
      IO.eprintln line

/-- The bytes of the next line of an input after those in `found`, which stand
    there last one first. At the end of the input there is none. -/
partial def lineBytes (input : IO.FS.Stream) (found : List UInt8) : IO (Option (List UInt8)) := do
  let bytes ← input.read 1
  match bytes.toList with
  | [] => return if found.isEmpty then none else some found.reverse
  | 10 :: _ => return some found.reverse
  | b :: _ => lineBytes input (b :: found)

/-- The interactive loop, from a session on. -/
partial def converse (s : Session) : IO Unit := do
  let output ← IO.getStdout
  if ← output.isTty then
    output.putStr "> "
    output.flush
  let bytes ← lineBytes (← IO.getStdin) []
  let r := Repl.react s (bytes.map Repl.lineText?)
  display r.transcript
  if r.goesOn then converse r.session

def usage : String :=
  "usage: run [--max-depth N] FILE | parse FILE | tokens FILE | repl"

end Main
end ScopeScript

open ScopeScript in
/-- Do what the arguments ask for; the result is the exit status. -/
def main (arguments : List String) : IO UInt32 := do
  match CommandLine.Invocation.ofArguments? arguments with
  | none =>
    IO.eprintln Main.usage
    return UInt32.ofNat CommandLine.Outcome.misuse.status
  | some .repl =>
    Main.display (.printed Repl.banner)
    Main.converse Repl.session
    return 0
  | some (.onFile task file) =>
    let outcome := CommandLine.onFile task file (← Main.readSource file)
    Main.display outcome.transcript
    return UInt32.ofNat outcome.status
