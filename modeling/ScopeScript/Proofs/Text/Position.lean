/-
  ScopeScript.Proofs.Text.Position

  Lines and columns tell characters apart. Each character moves the place on,
  along its line or to a later one, so no two indices up to the end of a text
  have one place, nor two places one written form.
-/
import Mathlib.Data.List.Basic
import ScopeScript.Text.Position

namespace ScopeScript
namespace Text

namespace Position

/-- A place comes before another: in an earlier line, or before it in its line. -/
def Before (p q : Position) : Prop :=
  p.line < q.line ∨ p.line = q.line ∧ p.column < q.column

variable {p q r : Position}

theorem Before.irrefl (p : Position) : ¬p.Before p := by
  simp [Before]

theorem Before.trans (h : p.Before q) (h' : q.Before r) : p.Before r := by
  unfold Before at *
  omega

/-- A character moves the place on. -/
theorem before_advance_succ {n : Nat} {cs : List Char} (h : n < cs.length) (p : Position) :
    p.Before (p.advance (n + 1) cs) := by
  induction cs generalizing n p with
  | nil => exact absurd h (Nat.not_lt_zero n)
  | cons c rest ih =>
    -- The place behind the character, from which the others go on.
    have hstep (q : Position) (hpq : p.Before q) : p.Before (q.advance n rest) := by
      cases n with
      | zero => exact hpq
      | succ n => exact hpq.trans (ih (Nat.lt_of_succ_lt_succ h) q)
    rw [advance]
    split
    · exact hstep _ (.inl (Nat.lt_succ_self _))
    · exact hstep _ (.inr ⟨rfl, Nat.lt_succ_self _⟩)

theorem advance_injective {cs : List Char} {i j : Nat} (hi : i ≤ cs.length) (hj : j ≤ cs.length)
    (h : p.advance i cs = p.advance j cs) : i = j := by
  induction cs generalizing i j p with
  | nil => rw [Nat.le_zero.1 hi, Nat.le_zero.1 hj]
  | cons c rest ih =>
    cases i with
    | zero =>
      cases j with
      | zero => rfl
      | succ j =>
        have hbefore : p.Before (p.advance (j + 1) (c :: rest)) := before_advance_succ hj p
        rw [← h] at hbefore
        exact absurd hbefore (Before.irrefl p)
    | succ i =>
      cases j with
      | zero =>
        have hbefore : p.Before (p.advance (i + 1) (c :: rest)) := before_advance_succ hi p
        rw [h] at hbefore
        exact absurd hbefore (Before.irrefl p)
      | succ j =>
        rw [advance, advance] at h
        congr 1
        split at h
        · exact ih (Nat.le_of_succ_le_succ hi) (Nat.le_of_succ_le_succ hj) h
        · exact ih (Nat.le_of_succ_le_succ hi) (Nat.le_of_succ_le_succ hj) h

/-! ## The written form -/

theorem toDigits_injective {m n : Nat} (h : Nat.toDigits 10 m = Nat.toDigits 10 n) : m = n := by
  calc m = Nat.ofDigitChars 10 (Nat.toDigits 10 m) 0 := Nat.ofDigitChars_ten_toDigits.symm
    _ = n := by rw [h, Nat.ofDigitChars_ten_toDigits]

theorem colon_not_mem (n : Nat) : ':' ∉ Nat.toDigits 10 n := by
  intro h
  exact absurd (Nat.isDigit_of_mem_toDigits (by decide) (by decide) h) (by decide)

theorem toList_text (p : Position) :
    p.text.toList = Nat.toDigits 10 p.line ++ ':' :: Nat.toDigits 10 p.column := by
  simp [text]

theorem text_injective (h : p.text = q.text) : p = q := by
  have hlist := congrArg String.toList h
  rw [toList_text, toList_text, List.append_cons_inj_of_notMem (colon_not_mem _) (colon_not_mem _)]
    at hlist
  obtain ⟨hline, -, hcolumn⟩ := hlist
  obtain ⟨line, column⟩ := p
  obtain ⟨line', column'⟩ := q
  rw [mk.injEq]
  exact ⟨toDigits_injective hline, toDigits_injective hcolumn⟩

end Position

/-- The characters of a text and its end have places of their own. -/
theorem positionOf_injective {cs : List Char} {i j : Nat} (hi : i ≤ cs.length)
    (hj : j ≤ cs.length) (h : positionOf cs i = positionOf cs j) : i = j :=
  Position.advance_injective hi hj h

end Text
end ScopeScript
