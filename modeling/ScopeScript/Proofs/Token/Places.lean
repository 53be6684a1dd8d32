/-
  ScopeScript.Proofs.Token.Places

  Where tokens stand: one after another, none of them empty, up to the end of the
  source. An error of a scan stands in the source too.
-/
import ScopeScript.Proofs.Token.Runs

namespace ScopeScript

/-- The tokens stand one behind another from byte `k` up to byte `size`. -/
def Spaced (size : Nat) : Nat → List Lexeme → Prop
  | k, [] => k ≤ size
  | k, t :: ts => k ≤ t.span.start ∧ t.span.start < t.span.stop ∧ Spaced size t.span.stop ts

namespace Spaced

variable {size j k : Nat} {ts : List Lexeme}

/-- Tokens behind a byte are behind every earlier byte. -/
theorem mono (h : Spaced size k ts) (hle : j ≤ k) : Spaced size j ts := by
  cases ts with
  | nil => exact Nat.le_trans hle h
  | cons t ts => exact ⟨Nat.le_trans hle h.1, h.2⟩

/-- The bytes up to where the tokens begin are in the source. -/
theorem le (h : Spaced size k ts) : k ≤ size := by
  induction ts generalizing k with
  | nil => exact h
  | cons t ts ih =>
    obtain ⟨hstart, hlt, hrest⟩ := h
    exact Nat.le_trans hstart (Nat.le_trans (Nat.le_of_lt hlt) (ih hrest))

/-- Every token is behind the byte, is not empty and is in the source. -/
theorem mem (h : Spaced size k ts) :
    ∀ t ∈ ts, k ≤ t.span.start ∧ t.span.start < t.span.stop ∧ t.span.stop ≤ size := by
  induction ts generalizing k with
  | nil => exact fun t ht => absurd ht List.not_mem_nil
  | cons t ts ih =>
    obtain ⟨hstart, hlt, hrest⟩ := h
    refine List.forall_mem_cons.2 ⟨⟨hstart, hlt, hrest.le⟩, fun u hu => ?_⟩
    -- What is behind the first token is behind the byte that it begins at.
    obtain ⟨hle, hspan⟩ := ih hrest u hu
    exact ⟨Nat.le_trans hstart (Nat.le_trans (Nat.le_of_lt hlt) hle), hspan⟩

/-- Of any two tokens the one ends before the other begins. -/
theorem pairwise (h : Spaced size k ts) :
    ts.Pairwise fun a b => a.span.stop ≤ b.span.start := by
  induction ts generalizing k with
  | nil => exact .nil
  | cons t ts ih => exact .cons (fun u hu => (h.2.2.mem u hu).1) (ih h.2.2)

end Spaced

/-! ## The last of some tokens -/

/-- The span of the last of some tokens, or of one before them. -/
def lastSpan (before : Span) (ts : List Lexeme) : Span :=
  ts.foldl (fun _ t => t.span) before

@[simp] theorem lastSpan_cons (before : Span) (t : Lexeme) (ts : List Lexeme) :
    lastSpan before (t :: ts) = lastSpan t.span ts := rfl

/-- The last of tokens in a row is the last of the last ones that there are. -/
theorem lastSpan_append (before : Span) (ts us : List Lexeme) :
    lastSpan before (ts ++ us) = lastSpan (lastSpan before ts) us :=
  List.foldl_append

/-! ## Scans -/

namespace Scan

/-- The tokens of a scan from byte `start` stand one behind another from there up to the end
    of the characters, and an error stands among these. -/
theorem places_tokensFrom (start : Nat) (cs : List Char) :
    (∀ ts, tokensFrom start cs [] = .ok ts → Spaced (start + Text.byteLength cs) start ts) ∧
    ∀ e, tokensFrom start cs [] = .error e →
      e.span.start < e.span.stop ∧ e.span.stop ≤ start + Text.byteLength cs := by
  refine tokensFrom_induction (motive := fun start cs x =>
    (∀ ts, x = .ok ts → Spaced (start + Text.byteLength cs) start ts) ∧
    ∀ e, x = .error e → e.span.start < e.span.stop ∧ e.span.stop ≤ start + Text.byteLength cs)
    ?nil ?gap ?token ?fault start cs
  case nil =>
    refine fun start => ⟨fun ts h => ?_, nofun⟩
    cases h
    exact Nat.le_refl start
  case gap =>
    intro start c cs x _ ih
    -- A gap has no token, and the tokens behind it are behind its start too.
    rw [Munch.stop_add] at ih
    exact ⟨fun ts h => (ih.1 ts h).mono (Nat.le_of_lt (Munch.lt_stop _ start)), ih.2⟩
  case token =>
    intro start c cs t x _ ih
    -- A token begins where the scan stands and is as long as its munch, which is not empty.
    rw [Munch.stop_add] at ih
    cases x with
    | error e =>
      refine ⟨nofun, fun e' h => ?_⟩
      cases h
      exact ih.2 e rfl
    | ok ts =>
      refine ⟨fun all h => ?_, nofun⟩
      cases h
      exact ⟨Nat.le_refl start, Munch.lt_stop _ start, ih.1 ts rfl⟩
  case fault =>
    intro start c cs f _
    -- The error is about the piece that no token begins with.
    refine ⟨nofun, fun e h => ?_⟩
    cases h
    exact ⟨Munch.lt_stop _ start, Munch.stop_le _ start⟩

end Scan

variable {source : String}

/-- The tokens of a source stand in it one behind another. -/
theorem spaced_of_tokenize {tokens : List Lexeme} (h : tokenize source = .ok tokens) :
    Spaced source.utf8ByteSize 0 tokens := by
  have hspaced := (Scan.places_tokensFrom 0 source.toList).1 tokens h
  rwa [Nat.zero_add, Text.byteLength_toList] at hspaced

/-- The error of a source that does not scan is a piece of it. -/
theorem place_of_tokenize {e : ScanError} (h : tokenize source = .error e) :
    e.span.start < e.span.stop ∧ e.span.stop ≤ source.utf8ByteSize := by
  have hplace := (Scan.places_tokensFrom 0 source.toList).2 e h
  rwa [Nat.zero_add, Text.byteLength_toList] at hplace

end ScopeScript
