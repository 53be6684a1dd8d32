/-
  ScopeScript.Proofs.Places

  Source ranges from the text to the errors of its programs. Tokens stand one
  behind another, trees nest as their ranges do, and every error points into
  what it is about.
-/
import ScopeScript.Source
import ScopeScript.Proofs.Grammar.Places
import ScopeScript.Proofs.Session.ErrorPlaces

namespace ScopeScript

/-- The tokens of a text are not empty, disjoint, in order, and within the text.
    The statements of its program lie in the text, disjoint and in order, each
    with all of its parts in their places, and when one of them fails, in
    whatever session, the error points into that statement. If there is no
    program the error points into the text. -/
theorem spans_sound (source : String) (limit : Nat) :
    (∀ tokens, tokenize source = .ok tokens →
      (∀ t ∈ tokens, t.span.start < t.span.stop ∧ t.span.stop ≤ source.utf8ByteSize) ∧
      tokens.Pairwise fun a b => a.span.stop ≤ b.span.start) ∧
    (∀ p, Program.ofSource limit source = .ok p →
      (∀ e ∈ p.statements, e.FitsIn ⟨0, source.utf8ByteSize⟩) ∧
      (p.statements.Pairwise fun a b => a.span.stop ≤ b.span.start) ∧
      ∀ e ∈ p.statements, ∀ s err s', evaluate e s = .error err s' →
        ∃ span, err.span = some span ∧ span.Within e.span) ∧
    ∀ err, Program.ofSource limit source = .error err →
      ∃ span, err.span? = some span ∧ span.start ≤ span.stop ∧
        span.stop ≤ source.utf8ByteSize := by
  refine ⟨fun tokens htokens => ?tokens, fun p hp => ?program, fun err herr => ?error⟩
  case tokens =>
    have hspaced := spaced_of_tokenize htokens
    exact ⟨fun t ht => (hspaced.mem t ht).2, hspaced.pairwise⟩
  case program =>
    rw [Program.ofSource] at hp
    cases htokens : tokenize source with
    | error e => rw [htokens] at hp; cases hp
    | ok tokens =>
      have hplaces := Grammar.places_ofLexemes limit (spaced_of_tokenize htokens)
      cases hprogram : Program.ofLexemes limit source.utf8ByteSize tokens with
      | error e => simp only [htokens, hprogram] at hp; cases hp
      | ok q =>
        simp only [htokens, hprogram] at hp
        cases hp
        obtain ⟨hfits, hdisjoint⟩ := hplaces.value p hprogram
        exact ⟨hfits, hdisjoint, fun e he s err s' herr => place_of_evaluate (hfits e he).fits herr⟩
  case error =>
    rw [Program.ofSource] at herr
    cases htokens : tokenize source with
    | error e =>
      rw [htokens] at herr
      cases herr
      obtain ⟨hlt, hle⟩ := place_of_tokenize htokens
      exact ⟨e.span, rfl, Nat.le_of_lt hlt, hle⟩
    | ok tokens =>
      have hplaces := Grammar.places_ofLexemes limit (spaced_of_tokenize htokens)
      cases hprogram : Program.ofLexemes limit source.utf8ByteSize tokens with
      | error e =>
        simp only [htokens, hprogram] at herr
        cases herr
        obtain ⟨hle, hstop⟩ := hplaces.error e hprogram
        exact ⟨e.span, rfl, hle, hstop⟩
      | ok q => simp only [htokens, hprogram] at herr; cases herr

end ScopeScript
