/-
  ScopeScript.Proofs.Shell.Reports

  Where reports say that an error is. The range of an error counts bytes, and it
  begins where a character does; a report counts its two ends as characters. The
  place that it shows is that of the character if all before it are of one byte
  and the end is a place too, and in no other case.
-/
import ScopeScript.Proofs.Grammar.Places
import ScopeScript.Proofs.Session.ErrorPlaces
import ScopeScript.Proofs.Session.ErrorRanges
import ScopeScript.Proofs.Shell.Incremental
import ScopeScript.Proofs.Text.Position
import ScopeScript.Proofs.Token.Boundaries

namespace ScopeScript

/-! ## Errors that arise -/

/-- What a source text can be wrong about: it is no program, or one of the
    statements of its program fails, in whatever session. -/
inductive Diagnostic.Arises (limit : Nat) (source : String) : Diagnostic → Prop where
  | reading {e : SourceError} (h : Program.ofSource limit source = .error e) :
      Arises limit source (.ofSource e)
  | running {p : Program} {e : Expr} {s s' : Session} {err : RuntimeError}
      (hp : Program.ofSource limit source = .ok p) (he : e ∈ p.statements)
      (h : evaluate e s = .error err s') : Arises limit source (.ofRuntime err)

/-- What a run of a source text reports are errors that arise from it. -/
theorem Session.arises_of_mem_reports {s : Session} {file source : String} {limit : Nat}
    {r : Report} (hr : r ∈ (s.runSource file limit source).2.1.reports) :
    ∃ d : Diagnostic, d.Arises limit source ∧ r = d.report file source := by
  cases hp : Program.ofSource limit source with
  | error e =>
    rw [runSource, hp] at hr
    obtain rfl := List.mem_singleton.1 hr
    exact ⟨_, .reading hp, rfl⟩
  | ok p =>
    obtain ⟨vs, e, s', hcomes, hrun⟩ := s.exists_runSource hp file
    rw [hrun] at hr
    cases hcomes with
    | values _ => cases hr
    | error before failing after hstatements _ hfailing _ =>
      obtain rfl := List.mem_singleton.1 hr
      have hmem : failing ∈ p.statements :=
        hstatements ▸ List.mem_append_right _ List.mem_cons_self
      exact ⟨_, .running hp hmem hfailing, rfl⟩

/-- Ranges of whole characters merge to such ranges. -/
def Span.Mergeable.whole (cs : List Char) : Span.Mergeable where
  holds := Span.Whole cs
  merge := Span.Whole.merge

section Arising

variable {limit : Nat} {source : String}

/-- From the tokens of a text the parser makes ranges of whole characters. -/
theorem ranges_of_tokenize (limit : Nat) {tokens : List Lexeme}
    (h : tokenize source = .ok tokens) :
    Grammar.Promises (fun p => ∀ e ∈ p.statements, e.Ranged (Span.Whole source.toList))
      (fun e => e.span.Whole source.toList)
      (Program.ofLexemes limit source.utf8ByteSize tokens) :=
  Grammar.ranges_ofLexemes (P := .whole source.toList) limit (Span.whole_end source)
    (whole_of_tokenize h)

theorem whole_of_ofSource_error {e : SourceError} (h : Program.ofSource limit source = .error e) :
    ∃ span, e.span? = some span ∧ span.Whole source.toList := by
  rw [Program.ofSource] at h
  cases htokens : tokenize source with
  | error e =>
    rw [htokens] at h
    cases h
    exact ⟨e.span, rfl, whole_of_tokenize_error htokens⟩
  | ok tokens =>
    have hranges := ranges_of_tokenize limit htokens
    cases hprogram : Program.ofLexemes limit source.utf8ByteSize tokens with
    | error e =>
      simp only [htokens, hprogram] at h
      cases h
      exact ⟨e.span, rfl, hranges.error e hprogram⟩
    | ok p => simp only [htokens, hprogram] at h; cases h

theorem whole_of_ofSource {p : Program} (h : Program.ofSource limit source = .ok p) :
    ∀ e ∈ p.statements, e.Fits ∧ e.Ranged (Span.Whole source.toList) := by
  rw [Program.ofSource] at h
  cases htokens : tokenize source with
  | error e => rw [htokens] at h; cases h
  | ok tokens =>
    have hranges := ranges_of_tokenize limit htokens
    have hplaces := Grammar.places_ofLexemes limit (spaced_of_tokenize htokens)
    cases hprogram : Program.ofLexemes limit source.utf8ByteSize tokens with
    | error e => simp only [htokens, hprogram] at h; cases h
    | ok q =>
      simp only [htokens, hprogram] at h
      cases h
      exact fun e he => ⟨((hplaces.value p hprogram).fits e he).fits, hranges.value p hprogram e he⟩

/-- Every error that arises from a source text has a range of whole characters. -/
theorem Diagnostic.Arises.whole {d : Diagnostic} (h : d.Arises limit source) :
    ∃ span, d.span = some span ∧ span.Whole source.toList := by
  cases h with
  | reading h => exact whole_of_ofSource_error h
  | running hp he h =>
    obtain ⟨hfits, hranged⟩ := whole_of_ofSource hp _ he
    obtain ⟨span, hspan, -⟩ := place_of_evaluate hfits h
    exact ⟨span, hspan, range_of_evaluate hranged h hspan⟩

end Arising

/-! ## Places shown -/

/-- A range that begins behind some characters is shown at the one behind them,
    or not. -/
theorem Diagnostic.place_report_iff {d : Diagnostic} {file source : String} {span : Span}
    {before after : List Char} (hspan : d.span = some span)
    (hsource : source.toList = before ++ after) (hbefore : Text.byteLength before = span.start) :
    (d.report file source).place =
        some (file ++ ":" ++ (Text.positionOf source.toList before.length).text) ↔
      (∀ c ∈ before, c.utf8Size = 1) ∧ span.stop ≤ source.toList.length + 1 := by
  have hle : before.length ≤ source.toList.length := by
    rw [hsource, List.length_append]
    exact Nat.le_add_right _ _
  have hplace : (d.report file source).place =
      (place? source.toList span).map fun p => file ++ ":" ++ p.text := by
    rw [report, hspan]
  rw [hplace, ← Text.byteLength_eq_length_iff, hbefore]
  constructor
  · intro h
    obtain ⟨p, hp, htext⟩ := Option.map_eq_some_iff.1 h
    have hsame : p = Text.positionOf source.toList before.length :=
      Text.Position.text_injective (String.append_right_inj _ |>.1 htext)
    rw [place?] at hp
    split at hp
    · next hhas =>
      simp only [hasPlace, Bool.and_eq_true, Bool.or_eq_true, decide_eq_true_eq] at hhas
      obtain rfl := Option.some.inj hp
      refine ⟨Text.positionOf_injective hhas.1 hle hsame, ?_⟩
      omega
    · cases hp
  · rintro ⟨hstart, hstop⟩
    have hhas : hasPlace source.toList.length span = true := by
      simp only [hasPlace, Bool.and_eq_true, Bool.or_eq_true, decide_eq_true_eq]
      omega
    rw [place?, if_pos hhas, hstart]
    rfl

/-- What a run of a source text reports are errors that arise from it, and each of
    them begins and ends at a character or at the end of the text. The report shows
    the place of the character exactly if only characters of one byte stand before
    it and the range of the error, counted as characters, ends in the text. -/
theorem report_place_exact (limit : Nat) (file source : String) :
    (∀ (s : Session), ∀ r ∈ (s.runSource file limit source).2.1.reports,
      ∃ d : Diagnostic, d.Arises limit source ∧ r = d.report file source) ∧
    ∀ d : Diagnostic, d.Arises limit source →
      ∃ span, d.span = some span ∧ span.Whole source.toList ∧
        ∀ before after, source.toList = before ++ after →
          Text.byteLength before = span.start →
            ((d.report file source).place =
                some (file ++ ":" ++ (Text.positionOf source.toList before.length).text) ↔
              (∀ c ∈ before, c.utf8Size = 1) ∧ span.stop ≤ source.toList.length + 1) := by
  refine ⟨fun s r hr => Session.arises_of_mem_reports hr, fun d hd => ?_⟩
  obtain ⟨span, hspan, hwhole⟩ := hd.whole
  exact ⟨span, hspan, hwhole, fun before after hsource hbefore =>
    Diagnostic.place_report_iff hspan hsource hbefore⟩

/-- In `1 # é` the character of two bytes stands behind the wrong one, which is
    shown at its place, the third in the line. -/
theorem report_place_exact_before_two_bytes :
    let d : Diagnostic := ⟨"Lexer", "unexpected character: \"#\"", some ⟨2, 3⟩⟩
    d.Arises defaultLimit "1 # é" ∧
      (d.report "main.qu" "1 # é").place = some "main.qu:1:3" := by
  intro d
  have htokens : tokenize "1 # é" = .error ⟨.unexpected '#', ⟨2, 3⟩⟩ := by decide +kernel
  have hsource : Program.ofSource defaultLimit "1 # é" =
      .error (.lexer "unexpected character: \"#\"" ⟨2, 3⟩) := by
    rw [Program.ofSource, htokens]
    rfl
  have hd : d.Arises defaultLimit "1 # é" := .reading hsource
  obtain ⟨span, hspan, -, hshown⟩ := (report_place_exact defaultLimit "main.qu" "1 # é").2 d hd
  obtain rfl : (⟨2, 3⟩ : Span) = span := Option.some.inj hspan
  have hbefore : ∀ c ∈ ['1', ' '], c.utf8Size = 1 :=
    List.forall_mem_cons.2 ⟨rfl, List.forall_mem_singleton.2 rfl⟩
  exact ⟨hd, (hshown ['1', ' '] ['#', ' ', 'é'] rfl rfl).2 ⟨hbefore, by decide +kernel⟩⟩

/-- Not every report shows the place at which the error begins. In `'é' #` the last
    character is a wrong one, and the report shows the end of the text, as one of
    the characters before it is of two bytes. -/
theorem report_place_wrong :
    ¬∀ (limit : Nat) (file source : String) (d : Diagnostic), d.Arises limit source →
      ∀ (span : Span) (before after : List Char), d.span = some span →
        source.toList = before ++ after → Text.byteLength before = span.start →
          (d.report file source).place =
            some (file ++ ":" ++ (Text.positionOf source.toList before.length).text) := by
  intro h
  have htokens : tokenize "'é' #" = .error ⟨.unexpected '#', ⟨5, 6⟩⟩ := by decide +kernel
  have hsource : Program.ofSource defaultLimit "'é' #" =
      .error (.lexer "unexpected character: \"#\"" ⟨5, 6⟩) := by
    rw [Program.ofSource, htokens]
    rfl
  have hplace := h defaultLimit "main.qu" "'é' #" _ (.reading hsource) ⟨5, 6⟩
    ['\'', 'é', '\'', ' '] ['#'] rfl rfl rfl
  exact absurd hplace (by decide)

end ScopeScript
