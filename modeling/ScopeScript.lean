import ScopeScript.Span
import ScopeScript.Double
import ScopeScript.Double.Remainder
import ScopeScript.Decimal.Shortest
import ScopeScript.Decimal.Layout
import ScopeScript.Text.Blank
import ScopeScript.Text.Unprintable
import ScopeScript.Text.Quoted
import ScopeScript.Text.Position
import ScopeScript.Token
import ScopeScript.Token.Scan
import ScopeScript.Expr
import ScopeScript.Expr.Equality
import ScopeScript.Json
import ScopeScript.Expr.Json
import ScopeScript.Builtin
import ScopeScript.Grammar.Cursor
import ScopeScript.Grammar.Expression
import ScopeScript.Grammar.Program
import ScopeScript.Source
import ScopeScript.RuntimeError
import ScopeScript.Number
import ScopeScript.Value
import ScopeScript.Value.Text
import ScopeScript.Value.Member
import ScopeScript.Value.Hash
import ScopeScript.Store
import ScopeScript.Session
import ScopeScript.Session.Target
import ScopeScript.Session.Evaluate
import ScopeScript.Diagnostic
import ScopeScript.Shell
import ScopeScript.Shell.Repl
import ScopeScript.Shell.CommandLine
import ScopeScript.Main
import ScopeScript.Proofs.KeyEquality
import ScopeScript.Proofs.Bindings
import ScopeScript.Proofs.Store.Frames
import ScopeScript.Proofs.Value.Member
import ScopeScript.Proofs.Identity.Stored
import ScopeScript.Proofs.Identity.Path
import ScopeScript.Proofs.Identity.Semantics
import ScopeScript.Proofs.Identity.Tracking
import ScopeScript.Proofs.Identity.Simulation
import ScopeScript.Proofs.Identity.Refinement
import ScopeScript.Proofs.Session.Actions
import ScopeScript.Proofs.Session.ReadOnly
import ScopeScript.Proofs.Session.TargetFaults
import ScopeScript.Proofs.Session.Assignment
import ScopeScript.Proofs.Expr.Bare
import ScopeScript.Proofs.Grammar.Contract
import ScopeScript.Proofs.Grammar.Runs
import ScopeScript.Proofs.Grammar.Productions
import ScopeScript.Proofs.Grammar.Derivation
import ScopeScript.Proofs.Grammar.Reading
import ScopeScript.Proofs.Grammar.Follow
import ScopeScript.Proofs.Grammar.Soundness
import ScopeScript.Proofs.Grammar.Completeness
import ScopeScript.Proofs.Grammar.Correctness
import ScopeScript.Proofs.Token.Spelling
import ScopeScript.Proofs.Value.Order
import ScopeScript.Proofs.Value.Literal
import ScopeScript.Proofs.Value.Spelling
import ScopeScript.Proofs.Session.Literal
import ScopeScript.Proofs.Value.RoundTrip
import ScopeScript.Proofs.Session.Unlimited
import ScopeScript.Proofs.Session.Limit
import ScopeScript.Proofs.Expr.Height
import ScopeScript.Proofs.Grammar.Height
import ScopeScript.Proofs.Grammar.Highest
import ScopeScript.Proofs.Expr.Places
import ScopeScript.Proofs.Token.Runs
import ScopeScript.Proofs.Token.Places
import ScopeScript.Proofs.Grammar.Places
import ScopeScript.Proofs.Session.ErrorPlaces
import ScopeScript.Proofs.Places
import ScopeScript.Proofs.Token.Rules
import ScopeScript.Proofs.Token.Longest
import ScopeScript.Proofs.Token.Readings
import ScopeScript.Proofs.Token.MaximalMunch
import ScopeScript.Proofs.Expr.Assignments
import ScopeScript.Proofs.Expr.Relocation
import ScopeScript.Proofs.Session.Steps
import ScopeScript.Proofs.Session.Effects
import ScopeScript.Proofs.Session.Scopes
import ScopeScript.Proofs.Session.Transport
import ScopeScript.Proofs.Session.Host
import ScopeScript.Proofs.Session.Relocation
import ScopeScript.Proofs.Grammar.Names
import ScopeScript.Proofs.Session.Namespace
import ScopeScript.Proofs.Token.Concatenation
import ScopeScript.Proofs.Grammar.Transplant
import ScopeScript.Proofs.Shell.Incremental
import ScopeScript.Proofs.Session.Rewriting
import ScopeScript.Proofs.Session.Putting
import ScopeScript.Proofs.Session.WriteLog
import ScopeScript.Proofs.Expr.Everywhere
import ScopeScript.Proofs.Expr.Json
import ScopeScript.Proofs.Text.Position
import ScopeScript.Proofs.Token.Boundaries
import ScopeScript.Proofs.Grammar.Ranges
import ScopeScript.Proofs.Session.ErrorRanges
import ScopeScript.Proofs.Shell.Reports
import ScopeScript.Proofs.Shell.Loop
import ScopeScript.Proofs.Grammar.Unambiguous
import ScopeScript.Proofs.Grammar.Limit
import ScopeScript.Proofs.Expr.Size
import ScopeScript.Proofs.Grammar.Size
import ScopeScript.Proofs.Session.Steady
import ScopeScript.Proofs.Session.Cells
import ScopeScript.Proofs.Session.Updates
import ScopeScript.Proofs.Session.Ways
import ScopeScript.Proofs.Session.Addresses
import ScopeScript.Proofs.Session.Course
import ScopeScript.Proofs.Session.FirstFailure
import ScopeScript.Proofs.Grammar.Building
import ScopeScript.Proofs.Grammar.Proper
import ScopeScript.Proofs.Session.Unsupported
import ScopeScript.Proofs.Text.ByteOrder
import ScopeScript.Proofs.Value.Distinct
import ScopeScript.Proofs.Value.Rendering
import ScopeScript.Proofs.Session.Distinct
import ScopeScript.Proofs.Value.Equality
import ScopeScript.Proofs.Value.Congruence
import ScopeScript.Proofs.Session.Arithmetic
import ScopeScript.Proofs.Value.Access
import ScopeScript.Proofs.Token.ReadBack
import ScopeScript.Proofs.StatementText
import ScopeScript.Proofs.Grammar.Calls
import ScopeScript.Proofs.Grammar.Progress
