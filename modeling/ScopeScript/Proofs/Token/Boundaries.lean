/-
  ScopeScript.Proofs.Token.Boundaries

  Byte offsets between characters. A token, and an error of a scan, begins and
  ends at one, since what a scan takes off a text are whole characters.
-/
import ScopeScript.Proofs.Token.Runs

namespace ScopeScript

/-! ## Offsets between characters -/

namespace Text

/-- A character of the text begins at byte `k`, or the text ends there. -/
def IsBoundary (cs : List Char) (k : Nat) : Prop :=
  ∃ before after, cs = before ++ after ∧ byteLength before = k

variable {cs before after : List Char}

theorem isBoundary_append (before after : List Char) :
    IsBoundary (before ++ after) (byteLength before) :=
  ⟨before, after, rfl, rfl⟩

/-- Characters take at least a byte each. -/
theorem length_le_byteLength (cs : List Char) : cs.length ≤ byteLength cs := by
  induction cs with
  | nil => exact Nat.le_refl 0
  | cons c cs ih =>
    have hpos := c.utf8Size_pos
    rw [List.length_cons, byteLength]
    omega

/-- Bytes count characters where each of them is one byte. -/
theorem byteLength_eq_length_iff : byteLength cs = cs.length ↔ ∀ c ∈ cs, c.utf8Size = 1 := by
  induction cs with
  | nil => simp [byteLength]
  | cons c cs ih =>
    have hpos := c.utf8Size_pos
    have hle := length_le_byteLength cs
    rw [List.forall_mem_cons, ← ih, byteLength, List.length_cons]
    omega

end Text

/-- The range begins and ends between characters of the text. -/
structure Span.Whole (cs : List Char) (s : Span) : Prop where
  start : Text.IsBoundary cs s.start
  stop : Text.IsBoundary cs s.stop

theorem Span.Whole.merge {cs : List Char} {a b : Span} (ha : a.Whole cs) (hb : b.Whole cs) :
    (a.merge b).Whole cs := by
  constructor
  · rcases Nat.le_total a.start b.start with h | h
    · rw [start_merge, Nat.min_eq_left h]
      exact ha.start
    · rw [start_merge, Nat.min_eq_right h]
      exact hb.start
  · rcases Nat.le_total a.stop b.stop with h | h
    · rw [stop_merge, Nat.max_eq_right h]
      exact hb.stop
    · rw [stop_merge, Nat.max_eq_left h]
      exact ha.stop

/-- The empty range at the end of a text. -/
theorem Span.whole_end (source : String) :
    (⟨source.utf8ByteSize, source.utf8ByteSize⟩ : Span).Whole source.toList := by
  have hend : Text.IsBoundary source.toList source.utf8ByteSize := by
    have h := Text.isBoundary_append source.toList []
    rwa [List.append_nil, Text.byteLength_toList] at h
  exact ⟨hend, hend⟩

/-! ## Scans -/

namespace Scan

/-- A piece of a text that stands behind others. -/
theorem Munch.whole {rest : List Char} (m : Munch rest) (before : List Char) :
    (⟨Text.byteLength before, m.stop (Text.byteLength before)⟩ : Span).Whole (before ++ rest) := by
  refine ⟨Text.isBoundary_append before rest, before ++ m.text, m.rest, ?_, ?_⟩
  · rw [List.append_assoc, ← m.split]
  · rw [Text.byteLength_append, stop]

theorem whole_tokensFrom (start : Nat) (cs : List Char) :
    ∀ before, Text.byteLength before = start →
      (∀ ts, tokensFrom start cs [] = .ok ts → ∀ t ∈ ts, t.span.Whole (before ++ cs)) ∧
      ∀ e, tokensFrom start cs [] = .error e → e.span.Whole (before ++ cs) := by
  refine tokensFrom_induction (motive := fun start cs x =>
    ∀ before, Text.byteLength before = start →
      (∀ ts, x = .ok ts → ∀ t ∈ ts, t.span.Whole (before ++ cs)) ∧
      ∀ e, x = .error e → e.span.Whole (before ++ cs))
    ?nil ?gap ?token ?fault start cs
  case nil =>
    refine fun start before _ => ⟨fun ts h => ?_, nofun⟩
    cases h
    exact fun t ht => absurd ht List.not_mem_nil
  case gap =>
    rintro start c cs x _ ih before rfl
    -- The piece and what stands before it stand before the rest of the text.
    have hrest := ih (before ++ (munch c cs).text) (Text.byteLength_append _ _)
    rwa [List.append_assoc, ← (munch c cs).split] at hrest
  case token =>
    rintro start c cs t x _ ih before rfl
    have hrest := ih (before ++ (munch c cs).text) (Text.byteLength_append _ _)
    rw [List.append_assoc, ← (munch c cs).split] at hrest
    cases x with
    | error e =>
      refine ⟨nofun, fun e' h => ?_⟩
      cases h
      exact hrest.2 e rfl
    | ok ts =>
      refine ⟨fun all h => ?_, nofun⟩
      cases h
      exact List.forall_mem_cons.2 ⟨(munch c cs).whole before, hrest.1 ts rfl⟩
  case fault =>
    rintro start c cs f _ before rfl
    refine ⟨nofun, fun e h => ?_⟩
    cases h
    exact (munch c cs).whole before

end Scan

variable {source : String}

/-- Tokens are made of whole characters. -/
theorem whole_of_tokenize {tokens : List Lexeme} (h : tokenize source = .ok tokens) :
    ∀ t ∈ tokens, t.span.Whole source.toList :=
  (Scan.whole_tokensFrom 0 source.toList [] rfl).1 tokens h

theorem whole_of_tokenize_error {e : ScanError} (h : tokenize source = .error e) :
    e.span.Whole source.toList :=
  (Scan.whole_tokensFrom 0 source.toList [] rfl).2 e h

end ScopeScript
