/-
  ScopeScript.Proofs.KeyEquality

  Equality of keys. Two primitives are the same key exactly when one canonical
  primitive stands for both, so being the same key is an equivalence.
-/
import ScopeScript.Value

namespace ScopeScript

/-! ## Doubles -/

namespace Double

/-- A zero is not a NaN. -/
theorem isNaN_eq_false_of_isZero {d : Double} (h : d.isZero = true) : d.isNaN = false := by
  have hm : d.magnitude = 0 := by simpa [isZero] using h
  simp [isNaN, hm]

theorem isZero_zero : zero.isZero = true := by decide

theorem isNaN_nan : nan.isNaN = true := by decide

theorem isZero_canonical (d : Double) : d.canonical.isZero = d.isZero := by
  unfold canonical
  split
  · next h => rw [h, isZero_zero]
  · next h =>
    split
    · next hn =>
      rw [Bool.not_eq_true] at h
      rw [h]
      decide
    · rfl

theorem isNaN_canonical (d : Double) : d.canonical.isNaN = d.isNaN := by
  unfold canonical
  split
  · next h =>
    rw [isNaN_eq_false_of_isZero h]
    decide
  · split
    · next hn => rw [hn, isNaN_nan]
    · rfl

/-- Doubles are the same key exactly when one pattern stands for both. -/
theorem same_iff (a b : Double) : a.same b = true ↔ a.canonical = b.canonical := by
  constructor
  · intro h
    unfold same at h
    split at h
    · -- NaNs are the same key, and no NaN is a zero.
      next ha =>
      have haz : a.isZero = false := by
        cases hz : a.isZero with
        | false => rfl
        | true => rw [isNaN_eq_false_of_isZero hz] at ha; exact absurd ha (by decide)
      have hbz : b.isZero = false := by
        cases hz : b.isZero with
        | false => rfl
        | true => rw [isNaN_eq_false_of_isZero hz] at h; exact absurd h (by decide)
      simp [canonical, haz, hbz, ha, h]
    · split at h
      · next haz => simp [canonical, haz, h]
      · have hab : a = b := by
          cases a; cases b
          simpa using h
        rw [hab]
  · intro h
    have hz : a.isZero = b.isZero := by
      rw [← isZero_canonical a, h, isZero_canonical]
    have hn : a.isNaN = b.isNaN := by
      rw [← isNaN_canonical a, h, isNaN_canonical]
    unfold same
    split
    · next ha => rw [← hn, ha]
    · next ha =>
      split
      · next haz => rw [← hz, haz]
      · next haz =>
        have hab : a = b := by
          simpa [canonical, ha, haz, ← hz, ← hn] using h
        simp [hab]

end Double

/-! ## Primitives -/

namespace Primitive

variable {a b c : Primitive}

/-- Primitives are the same key exactly when one of them stands for both. -/
theorem same_iff : a.same b = true ↔ a.canonical = b.canonical := by
  cases a <;> cases b <;> simp [same, canonical, Double.same_iff]

@[simp] theorem same_self (a : Primitive) : a.same a = true :=
  same_iff.2 rfl

theorem same_symm (h : a.same b = true) : b.same a = true :=
  same_iff.2 (same_iff.1 h).symm

theorem same_eq_false_symm (h : a.same b = false) : b.same a = false := by
  cases hba : b.same a with
  | false => rfl
  | true =>
    rw [same_symm hba] at h
    cases h

theorem same_trans (h : a.same b = true) (h' : b.same c = true) : a.same c = true :=
  same_iff.2 ((same_iff.1 h).trans (same_iff.1 h'))

/-- Of two equal keys each is equal to the same keys. -/
theorem same_left (h : a.same b = true) (c : Primitive) : a.same c = b.same c := by
  rw [Bool.eq_iff_iff]
  exact ⟨same_trans (same_symm h), same_trans h⟩

/-- To two equal keys the same keys are equal. -/
theorem same_right (h : a.same b = true) (c : Primitive) : c.same a = c.same b := by
  rw [Bool.eq_iff_iff]
  exact ⟨fun h' => same_trans h' h, fun h' => same_trans h' (same_symm h)⟩

end Primitive

end ScopeScript
