/-
  ScopeScript.Proofs.Token.Runs

  Scans, piece by piece. What a text gives follows from what it begins with and
  from what the rest of it gives, so a property of whole scans follows from four
  steps: the end of the text, a gap, a token, and an error.
-/
import ScopeScript.Token.Scan

namespace ScopeScript

/-! ## Byte lengths -/

namespace Text

theorem utf8ByteSize_ofList (cs : List Char) : (String.ofList cs).utf8ByteSize = byteLength cs := by
  induction cs with
  | nil => rfl
  | cons c cs ih =>
    rw [String.ofList_cons, String.utf8ByteSize_append, String.utf8ByteSize_singleton, ih,
      byteLength]

theorem byteLength_toList (s : String) : byteLength s.toList = s.utf8ByteSize := by
  rw [← utf8ByteSize_ofList, String.ofList_toList]

theorem byteLength_pos {cs : List Char} (h : cs ≠ []) : 0 < byteLength cs := by
  cases cs with
  | nil => exact absurd rfl h
  | cons c cs => exact Nat.add_pos_left c.utf8Size_pos _

end Text

namespace Scan

/-! ## Pieces -/

/-- Where the piece ends that begins a text at byte `start`. -/
def Munch.stop {source : List Char} (m : Munch source) (start : Nat) : Nat :=
  start + Text.byteLength m.text

variable {source : List Char}

theorem Munch.lt_stop (m : Munch source) (start : Nat) : start < m.stop start :=
  Nat.lt_add_of_pos_right (Text.byteLength_pos m.moved)

theorem Munch.stop_add (m : Munch source) (start : Nat) :
    m.stop start + Text.byteLength m.rest = start + Text.byteLength source := by
  rw [stop, Nat.add_assoc, ← Text.byteLength_append, ← m.split]

theorem Munch.stop_le (m : Munch source) (start : Nat) :
    m.stop start ≤ start + Text.byteLength source :=
  m.stop_add start ▸ Nat.le_add_right _ _

/-! ## Scans -/

/-- Tokens that have been found already only stand before the others. -/
theorem tokensFrom_found (start : Nat) (cs : List Char) (found : List Lexeme) :
    tokensFrom start cs found = (tokensFrom start cs []).map (found.reverse ++ ·) := by
  match cs with
  | [] => simp only [tokensFrom, Except.map, List.reverse_nil, List.append_nil]
  | c :: cs =>
    have hlt := (munch c cs).length_rest
    rw [tokensFrom, tokensFrom]
    cases hpiece : (munch c cs).piece with
    | gap => exact tokensFrom_found _ (munch c cs).rest found
    | token t =>
      -- The scan goes on with one more token found, so the claim is for any tokens.
      simp only
      rw [tokensFrom_found _ (munch c cs).rest (_ :: found),
        tokensFrom_found _ (munch c cs).rest [_]]
      cases tokensFrom _ (munch c cs).rest [] with
      | error e => rfl
      | ok ts =>
        simp only [Except.map, List.reverse_cons, List.reverse_nil, List.nil_append,
          List.append_assoc]
    | fault f => rfl
termination_by cs.length
decreasing_by all_goals exact hlt

variable {start : Nat} {c : Char} {cs : List Char}

theorem tokensFrom_gap (h : (munch c cs).piece = .gap) :
    tokensFrom start (c :: cs) [] =
      tokensFrom ((munch c cs).stop start) (munch c cs).rest [] := by
  rw [tokensFrom]
  simp only [h]
  rfl

theorem tokensFrom_token {t : Token} (h : (munch c cs).piece = .token t) :
    tokensFrom start (c :: cs) [] =
      (tokensFrom ((munch c cs).stop start) (munch c cs).rest []).map
        (⟨t, ⟨start, (munch c cs).stop start⟩⟩ :: ·) := by
  rw [tokensFrom]
  simp only [h]
  exact tokensFrom_found _ (munch c cs).rest [_]

theorem tokensFrom_fault {f : ScanFault} (h : (munch c cs).piece = .fault f) :
    tokensFrom start (c :: cs) [] = .error ⟨f, ⟨start, (munch c cs).stop start⟩⟩ := by
  rw [tokensFrom]
  simp only [h]
  rfl

/-- What holds of the scan of a text, if it holds at the end of the text, at every
    error, and with every gap and token before what it holds of. -/
theorem tokensFrom_induction
    {motive : Nat → List Char → Except ScanError (List Lexeme) → Prop}
    (nil : ∀ start, motive start [] (.ok []))
    (gap : ∀ start c cs x, (munch c cs).piece = .gap →
      motive ((munch c cs).stop start) (munch c cs).rest x → motive start (c :: cs) x)
    (token : ∀ start c cs t x, (munch c cs).piece = .token t →
      motive ((munch c cs).stop start) (munch c cs).rest x →
      motive start (c :: cs) (x.map (⟨t, ⟨start, (munch c cs).stop start⟩⟩ :: ·)))
    (fault : ∀ start c cs f, (munch c cs).piece = .fault f →
      motive start (c :: cs) (.error ⟨f, ⟨start, (munch c cs).stop start⟩⟩))
    (start : Nat) (cs : List Char) : motive start cs (tokensFrom start cs []) := by
  match cs with
  | [] =>
    rw [tokensFrom]
    exact nil start
  | c :: cs =>
    -- No piece is empty, so what is behind it is shorter.
    have hlt := (munch c cs).length_rest
    have ih := tokensFrom_induction nil gap token fault ((munch c cs).stop start) (munch c cs).rest
    cases hpiece : (munch c cs).piece with
    | gap =>
      rw [tokensFrom_gap hpiece]
      exact gap start c cs _ hpiece ih
    | token t =>
      rw [tokensFrom_token hpiece]
      exact token start c cs t _ hpiece ih
    | fault f =>
      rw [tokensFrom_fault hpiece]
      exact fault start c cs f hpiece
termination_by cs.length
decreasing_by all_goals exact hlt

end Scan
end ScopeScript
