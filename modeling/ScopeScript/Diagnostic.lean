/-
  ScopeScript.Diagnostic

  Reports of errors: a headline, and where there is one the place in a file at
  which the error's span starts. Spans are taken as counts of characters here;
  one that reaches beyond the source has no place. The message stands in the
  headline of an error without a span and is a detail of any other.
-/
import ScopeScript.Source
import ScopeScript.RuntimeError

namespace ScopeScript

/-! ## Reports -/

/-- What is shown about an error. -/
structure Report where
  headline : String
  /-- File, line and column. -/
  place : Option String
  detail : Option String
deriving DecidableEq

namespace Report

/-- A report of just one line. -/
def ofLine (line : String) : Report := ⟨line, none, none⟩

/-- The lines that say what kind of error there is and where. -/
def lines (r : Report) : List String :=
  r.headline :: r.place.toList

/-- All lines, with the detail last. -/
def allLines (r : Report) : List String :=
  r.lines ++ (r.detail.map ("  " ++ ·)).toList

end Report

/-! ## Errors -/

/-- An error as reports see it. -/
structure Diagnostic where
  /-- What kind of error it is: the stage that failed, or running. -/
  stage : String
  message : String
  span : Option Span
deriving DecidableEq

namespace Diagnostic

def ofSource (e : SourceError) : Diagnostic :=
  ⟨e.stage, e.message, e.span?⟩

def ofRuntime (e : RuntimeError) : Diagnostic :=
  ⟨"Runtime", e.fault.message, e.span⟩

/-- Whether a source of the given length has a place for the span. -/
def hasPlace (length : Nat) (span : Span) : Bool :=
  span.start ≤ length && (span.stop ≤ span.start || span.stop ≤ length + 1)

/-- The place in a source at which a span starts. -/
def place? (source : List Char) (span : Span) : Option Text.Position :=
  if hasPlace source.length span then some (Text.positionOf source span.start) else none

/-- The report of an error in a source text. -/
def report (file source : String) (d : Diagnostic) : Report :=
  match d.span with
  | none => .ofLine ("Error: " ++ d.stage ++ " error: " ++ d.message)
  | some span =>
    ⟨"Error: " ++ d.stage ++ " error",
      (place? source.toList span).map fun p => file ++ ":" ++ p.text,
      some d.message⟩

end Diagnostic

end ScopeScript
