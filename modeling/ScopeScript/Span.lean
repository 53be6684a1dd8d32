/-
  ScopeScript.Span

  Byte ranges of source text. A span counts UTF-8 bytes from the start of the
  text, `start` included and `stop` excluded. Tokens, tree nodes and errors
  carry one. `merge` is the least range around two others, so spans ordered by
  inclusion form a join semilattice on the well-formed ranges.
-/

namespace ScopeScript

/-- The bytes `start ≤ i < stop` of a source text. -/
structure Span where
  start : Nat
  stop : Nat
deriving DecidableEq, Inhabited

namespace Span

/-- The smallest range around both. -/
def merge (a b : Span) : Span :=
  ⟨min a.start b.start, max a.stop b.stop⟩

/-- The written form, `start..stop`. -/
def text (s : Span) : String :=
  toString s.start ++ ".." ++ toString s.stop

/-- The same range `n` bytes further on. -/
def shift (n : Nat) (s : Span) : Span :=
  ⟨s.start + n, s.stop + n⟩

/-! ## Merging -/

@[simp] theorem start_merge (a b : Span) : (a.merge b).start = min a.start b.start := rfl

@[simp] theorem stop_merge (a b : Span) : (a.merge b).stop = max a.stop b.stop := rfl

end Span

end ScopeScript
