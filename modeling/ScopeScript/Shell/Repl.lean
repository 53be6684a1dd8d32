/-
  ScopeScript.Shell.Repl

  The interactive loop. A line is a command, which begins with a colon, or a
  source text that runs in the session of the loop. Blank lines are skipped. The
  loop ends with a farewell at a quitting command and at the end of the input,
  and without one at a line that is not a text.
-/
import ScopeScript.Shell
import ScopeScript.Text.Blank

namespace ScopeScript
namespace Repl

/-! ## Texts -/

def banner : List String :=
  ["Quill REPL v0.1.0", "Type :help for help, :quit to exit.", ""]

def farewell : List String := ["Goodbye!"]

def help : List String :=
  ["Quill REPL Commands:",
   "  :help, :h, :?   Show this help",
   "  :quit, :q       Exit the REPL",
   "  :clear          Clear the screen",
   "  :scope          Show the current scope",
   "  :descend        Enter a nested scope",
   "  :ascend         Leave the current nested scope",
   "  :reset          Forget all variables",
   "",
   "You can enter:",
   "  - Arithmetic: 1 + 2 * 3, 2 ** -1, 7 % 4",
   "  - Assignment: x = 5; x += 1; x++",
   "  - Containers: o = \x7b'a': [1, 2]\x7d; o.a[0] = 3"]

/-- The terminal codes that clear the screen and put the cursor into its
    corner. -/
def clearScreen : String := "\x1B[2J\x1B[1;1H"

/-- The name that reports give to what was typed. -/
def fileName : String := "<repl>"

def depthLine (s : Session) : String :=
  "depth " ++ toString s.store.depth

/-! ## Commands -/

inductive Command where
  | quit | help | clear | scope | descend | ascend | reset
  | unknown (line : String)
deriving DecidableEq

def Command.ofLine (line : String) : Command :=
  if line = ":quit" ∨ line = ":q" ∨ line = ":exit" then quit
  else if line = ":help" ∨ line = ":h" ∨ line = ":?" then help
  else if line = ":clear" then clear
  else if line = ":scope" then scope
  else if line = ":descend" then descend
  else if line = ":ascend" then ascend
  else if line = ":reset" then reset
  else unknown line

/-- What a line does: the session after it, what it shows, and whether the loop
    goes on. -/
structure Reply where
  session : Session
  transcript : Transcript
  goesOn : Bool

def Command.reply (s : Session) : Command → Reply
  | quit => ⟨s, .printed farewell, false⟩
  | help => ⟨s, .printed Repl.help, true⟩
  | clear => ⟨s, .shown clearScreen, true⟩
  | scope => ⟨s, .printed [depthLine s ++ ": " ++ (Value.object s.store.current).text], true⟩
  | descend =>
    let s' := { s with store := s.store.descend }
    ⟨s', .printed [depthLine s'], true⟩
  | ascend =>
    match s.store.ascend with
    | .ok store =>
      let s' := { s with store := store }
      ⟨s', .printed [depthLine s'], true⟩
    | .error f => ⟨s, .reported (.ofLine (RuntimeError.text ⟨f, none⟩)), true⟩
  | reset => ⟨s.reset, .printed ["Scope reset."], true⟩
  | unknown line => ⟨s, .printed ["Unknown command: " ++ line, "Type :help for help."], true⟩

/-! ## The loop -/

/-- The report of a line that is not a text. -/
def notText : Report := .ofLine ("Error: " ++ ReadFault.notText.message)

/-- The session with which the loop begins. -/
def session : Session := .new defaultLimit

/-- What a line of input does. -/
def reply (s : Session) (input : String) : Reply :=
  let line := Text.trim input
  if line.isEmpty then ⟨s, .empty, true⟩
  else if line.startsWith ":" then (Command.ofLine line).reply s
  else
    let (s', t, _) := s.runSource fileName defaultLimit line
    ⟨s', t, true⟩

/-- What the loop does with what it reads: a line, which is none if it is not a
    text, or nothing at the end of the input. -/
def react (s : Session) : Option (Option String) → Reply
  | some (some line) => reply s line
  | some none => ⟨s, .reported notText, false⟩
  | none => ⟨s, .printed farewell, false⟩

/-- What the rest of the loop shows when these lines are read. -/
def continued (s : Session) : List (Option String) → Transcript
  | [] => (react s none).transcript
  | line :: rest =>
    let r := react s (some line)
    if r.goesOn then r.transcript ++ continued r.session rest else r.transcript

/-- What the whole loop shows. -/
def run (lines : List (Option String)) : Transcript :=
  .printed banner ++ continued session lines

/-- The text of a line, if its bytes are one. -/
def lineText? (bytes : List UInt8) : Option String :=
  (sourceText bytes).toOption

/-- The lines of an input. What follows the last line feed is one more line
    unless it is empty. -/
def inputLines (bytes : List UInt8) : List (Option String) :=
  let pieces := bytes.splitOn 10
  let lines := if pieces.getLast? = some [] then pieces.dropLast else pieces
  lines.map lineText?

end Repl
end ScopeScript
