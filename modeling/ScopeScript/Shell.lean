/-
  ScopeScript.Shell

  What running source texts prints. `Trace` evaluates statements one after
  another and keeps the values up to the first error; a `Transcript` is the
  standard output and the error reports that come of it.
-/
import ScopeScript.Session.Evaluate
import ScopeScript.Diagnostic

namespace ScopeScript

/-! ## Traces -/

/-- The values of the statements before the first failing one, its error if
    there is one, and the session afterwards. -/
structure Trace where
  values : List Value
  error : Option RuntimeError
  session : Session

/-- Evaluate statements up to the first error. -/
def Trace.ofStatements : List Expr → Session → Trace
  | [], s => ⟨[], none, s⟩
  | e :: rest, s =>
    match evaluate e s with
    | .ok v s' =>
      let t := ofStatements rest s'
      { t with values := v :: t.values }
    | .error x s' => ⟨[], some x, s'⟩

/-! ## Transcripts -/

/-- What was printed, and what was reported. -/
structure Transcript where
  output : String
  reports : List Report
deriving DecidableEq

namespace Transcript

def empty : Transcript := ⟨"", []⟩

def append (a b : Transcript) : Transcript :=
  ⟨a.output ++ b.output, a.reports ++ b.reports⟩

instance : Append Transcript := ⟨append⟩

/-- Lines of output, each with its line feed. -/
def printed (lines : List String) : Transcript :=
  ⟨String.join (lines.map (· ++ "\n")), []⟩

/-- Output without a line feed. -/
def shown (text : String) : Transcript := ⟨text, []⟩

def reported (r : Report) : Transcript := ⟨"", [r]⟩

/-- The report of an error in a source text. -/
def diagnosed (file source : String) (d : Diagnostic) : Transcript :=
  reported (d.report file source)

/-- The values of a trace and the report of its error. -/
def ofTrace (file source : String) (t : Trace) : Transcript :=
  printed (t.values.map Value.text) ++
    match t.error with
    | some e => diagnosed file source (.ofRuntime e)
    | none => empty

end Transcript

/-- Run a source text that may nest at most `limit` levels. The result tells
    whether there was no error. -/
def Session.runSource (s : Session) (file : String) (limit : Nat) (source : String) :
    Session × Transcript × Bool :=
  match Program.ofSource limit source with
  | .error e => (s, .diagnosed file source (.ofSource e), false)
  | .ok p =>
    let t := Trace.ofStatements p.statements s
    (t.session, .ofTrace file source t, t.error.isNone)

end ScopeScript
