/-
  ScopeScript.Proofs.Session.Arithmetic

  Arithmetic on integers is that of the integers modulo `2 ^ 32`. To reduce an
  integer to 32 bits (`Int32.ofInt`, by value `Int.bmod · (2 ^ 32)`) goes through
  sums, differences, products and powers, so what a tree of them is reduced to
  step by step is its exact value reduced once. Quotients and remainders are those
  of truncated division, of which only the least integer by `-1` has to be reduced.
-/
import Mathlib.Data.Int.ModEq
import ScopeScript.Proofs.Session.Limit
import ScopeScript.Proofs.Session.Literal

namespace ScopeScript

/-! ## Powers -/

/-- Squaring comes to the power. -/
theorem Number.intPower_ofInt (base : Int) (exponent : Nat) :
    intPower (Int32.ofInt base) exponent = Int32.ofInt (base ^ exponent) := by
  induction exponent using Nat.strongRecOn generalizing base with
  | ind exponent ih =>
    rw [intPower]
    split
    · next hzero =>
      rw [hzero, Int.pow_zero]
      rfl
    next hne =>
    -- The power is that of the square by half the exponent, once more the base if
    -- the exponent is odd.
    have hhalf : intPower (Int32.ofInt base * Int32.ofInt base) (exponent / 2) =
        Int32.ofInt ((base * base) ^ (exponent / 2)) := by
      rw [← Int32.ofInt_mul]
      exact ih (exponent / 2) (by omega) (base * base)
    have hsquares : (base * base) ^ (exponent / 2) = base ^ (2 * (exponent / 2)) := by
      rw [← pow_two, ← pow_mul]
    simp only [hhalf]
    split
    · next hodd =>
      rw [← Int32.ofInt_mul, hsquares, ← Int.pow_succ']
      congr 2
      omega
    · next heven =>
      rw [hsquares]
      congr 2
      omega

theorem Number.pow_int {exponent : Int32} (h : 0 ≤ exponent.toInt) (base : Int32) :
    pow (.int base) (.int exponent) =
      .int (Int32.ofInt (base.toInt ^ exponent.toInt.toNat)) := by
  have hbase := intPower_ofInt base.toInt exponent.toInt.toNat
  rw [Int32.ofInt_toInt] at hbase
  rw [pow, if_pos h, hbase]

/-! ## Quotients and remainders -/

namespace Number

variable {a b : Int32}

theorem div_int (h : b ≠ 0) : div (.int a) (.int b) = .ok (.int (a / b)) := by
  rw [div, isZero, if_neg (by simpa using h), combine]

theorem rem_int (h : b ≠ 0) : rem (.int a) (.int b) = .ok (.int (a % b)) := by
  rw [rem, isZero, if_neg (by simpa using h), combine]

theorem div_int_eq_error_iff {f : RuntimeFault} :
    div (.int a) (.int b) = .error f ↔ b = 0 ∧ f = .divisionByZero := by
  by_cases h : b = 0
  · rw [div, isZero, if_pos (by simpa using h)]
    simp [h, eq_comm]
  · simp [div_int h, h]

theorem rem_int_eq_error_iff {f : RuntimeFault} :
    rem (.int a) (.int b) = .error f ↔ b = 0 ∧ f = .divisionByZero := by
  by_cases h : b = 0
  · rw [rem, isZero, if_pos (by simpa using h)]
    simp [h, eq_comm]
  · simp [rem_int h, h]

/-- The remainder is smaller than the divisor. -/
theorem natAbs_toInt_mod_lt (h : b ≠ 0) (a : Int32) :
    (a % b).toInt.natAbs < b.toInt.natAbs := by
  have hne : b.toInt ≠ 0 := fun hzero => h (Int32.toInt_inj.1 hzero)
  rw [Int32.toInt_mod, Int.natAbs_tmod]
  exact Nat.mod_lt _ (Int.natAbs_pos.2 hne)

/-- The remainder is zero or has the sign of the dividend. -/
theorem sign_toInt_mod (a b : Int32) :
    (a % b).toInt = 0 ∨ (a % b).toInt.sign = a.toInt.sign := by
  rw [Int32.toInt_mod]
  by_cases hdvd : b.toInt ∣ a.toInt
  · exact .inl (Int.tmod_eq_zero_of_dvd hdvd)
  · exact .inr (by rw [Int.sign_tmod, if_neg hdvd])

/-- The quotient times the divisor and the remainder make up the dividend, but for
    what has been reduced. -/
theorem toInt_div_mul_add_mod (a b : Int32) :
    (a / b).toInt * b.toInt + (a % b).toInt ≡ a.toInt [ZMOD 2 ^ 32] := by
  have hquotient : (a / b).toInt ≡ a.toInt.tdiv b.toInt [ZMOD 2 ^ 32] := by
    rw [Int32.toInt_div]
    exact Int.bmod_emod
  have hmade := (hquotient.mul_right b.toInt).add_right (a % b).toInt
  rw [Int32.toInt_mod] at hmade ⊢
  rwa [Int.tdiv_mul_add_tmod] at hmade

end Number

/-! ## Trees -/

/-- The operation on exact integers. -/
def BinaryOp.onInts? : BinaryOp → Option (Int → Int → Int)
  | add => some (· + ·)
  | sub => some (· - ·)
  | mul => some (· * ·)
  | _ => none

/-- The tree is made of integer literals, sums, differences and products, and has
    this exact value. -/
inductive Expr.Denotes : Expr → Int → Prop where
  | int (span : Span) (n : Int32) : Denotes (.int span n) n.toInt
  | binary (span : Span) {op : BinaryOp} {onInts : Int → Int → Int} {left right : Expr} {a b : Int}
    (hop : op.onInts? = some onInts) (hleft : left.Denotes a) (hright : right.Denotes b) :
    Denotes (.binary span op left right) (onInts a b)

/-- The operation on reduced integers is the exact one, reduced. -/
theorem BinaryOp.apply_ofInt {op : BinaryOp} {onInts : Int → Int → Int}
    (h : op.onInts? = some onInts) (a b : Int) :
    op.apply (.int (Int32.ofInt a)) (.int (Int32.ofInt b)) =
      .ok (.int (Int32.ofInt (onInts a b))) := by
  cases op with
  | add =>
    cases h
    rw [Int32.ofInt_add]
    rfl
  | sub =>
    cases h
    rw [Int32.ofInt_sub]
    rfl
  | mul =>
    cases h
    rw [Int32.ofInt_mul]
    rfl
  | _ => cases h

/-- An operation on two trees that have values, below the limit. -/
theorem exists_evaluate_binary {s s₁ s₂ : Session} {op : BinaryOp} {left right : Expr}
    {a b c : Value} (span : Span) (hlt : s.depth < s.limit)
    (hleft : evaluate left s.entered = .ok a s₁) (hlike : s.entered.Like s₁)
    (hright : evaluate right s₁ = .ok b s₂) (hlike' : s₁.Like s₂) (hop : op.apply a b = .ok c) :
    ∃ s', evaluate (.binary span op left right) s = .ok c s' ∧ s.Like s' := by
  rw [evaluate]
  refine Action.exists_nested hlt ?_ (hlike.trans hlike')
  rw [Action.bind_of_ok hleft, Action.bind_of_ok hright, hop]
  rfl

/-- A tree evaluates to its exact value, reduced. -/
theorem evaluate_of_denotes {e : Expr} {v : Int} (h : e.Denotes v) {s : Session}
    (hs : s.depth + e.need ≤ s.limit) :
    ∃ s', evaluate e s = .ok (.int (Int32.ofInt v)) s' ∧ s.Like s' := by
  induction h generalizing s with
  | int span n =>
    have hlt : s.depth < s.limit := by
      rw [Expr.need] at hs
      omega
    rw [Int32.ofInt_toInt]
    exact Action.exists_nested hlt rfl (.refl _)
  | @binary span op onInts left right a b hop _ _ ihleft ihright =>
    rw [Expr.need] at hs
    -- The operands are evaluated one level further in, from like sessions.
    obtain ⟨s₁, hleft, hlike⟩ := ihleft (s := s.entered) (by
      show s.depth + 1 + left.need ≤ s.limit
      omega)
    obtain ⟨s₂, hright, hlike'⟩ := ihright (s := s₁) (by
      rw [hlike.depth, hlike.limit]
      show s.depth + 1 + right.need ≤ s.limit
      omega)
    exact exists_evaluate_binary span (by omega) hleft hlike hright hlike'
      (BinaryOp.apply_ofInt hop a b)

/-- Integers are computed modulo `2 ^ 32`. A tree of integer literals, sums,
    differences and products that is within the limit evaluates to its exact value,
    reduced to 32 bits, and changes no scope; so does a power by an exponent that is
    not negative. A quotient and a remainder are an error exactly if the divisor is
    zero; else the remainder is smaller than the divisor, zero or of the sign of the
    dividend, the quotient is the truncated one, reduced, and the dividend is made up
    of both. -/
theorem integers_modular :
    (∀ e v, e.Denotes v → ∀ s : Session, s.depth + e.need ≤ s.limit →
      ∃ n s', evaluate e s = .ok (.int n) s' ∧ n.toInt = v.bmod (2 ^ 32) ∧ s.Like s') ∧
    (∀ base exponent : Int32, 0 ≤ exponent.toInt →
      ∃ n, Number.pow (.int base) (.int exponent) = .int n ∧
        n.toInt = (base.toInt ^ exponent.toInt.toNat).bmod (2 ^ 32)) ∧
    ∀ a b : Int32,
      (Number.div (.int a) (.int b) = .error .divisionByZero ↔ b = 0) ∧
      (Number.rem (.int a) (.int b) = .error .divisionByZero ↔ b = 0) ∧
      (b ≠ 0 → ∃ q r, Number.div (.int a) (.int b) = .ok (.int q) ∧
        Number.rem (.int a) (.int b) = .ok (.int r) ∧
        r.toInt.natAbs < b.toInt.natAbs ∧ (r.toInt = 0 ∨ r.toInt.sign = a.toInt.sign) ∧
        q.toInt = (a.toInt.tdiv b.toInt).bmod (2 ^ 32) ∧
        q.toInt * b.toInt + r.toInt ≡ a.toInt [ZMOD 2 ^ 32]) := by
  refine ⟨fun e v h s hs => ?tree, fun base exponent h => ?power, fun a b => ⟨?_, ?_, fun h => ?_⟩⟩
  case tree =>
    obtain ⟨s', he, hlike⟩ := evaluate_of_denotes h hs
    exact ⟨_, s', he, Int32.toInt_ofInt, hlike⟩
  case power => exact ⟨_, Number.pow_int h base, Int32.toInt_ofInt⟩
  · simp [Number.div_int_eq_error_iff]
  · simp [Number.rem_int_eq_error_iff]
  · exact ⟨a / b, a % b, Number.div_int h, Number.rem_int h, Number.natAbs_toInt_mod_lt h a,
      Number.sign_toInt_mod a b, Int32.toInt_div a b, Number.toInt_div_mul_add_mod a b⟩

/-- The greatest integer and one make the least one; ten to the tenth power does not
    fit; and the least integer by `-1` is itself, with nothing left. -/
theorem integers_modular_at_bounds :
    let sum : Expr := .binary ⟨0, 14⟩ .add (.int ⟨0, 10⟩ 2147483647) (.int ⟨13, 14⟩ 1)
    (∃ n s', evaluate sum (.new 2) = .ok (.int n) s' ∧
      n.toInt = (2147483647 + 1 : Int).bmod (2 ^ 32) ∧ (Session.new 2).Like s') ∧
    (∃ n, Number.pow (.int 10) (.int 10) = .int n ∧ n.toInt = (10 ^ 10 : Int).bmod (2 ^ 32)) ∧
    ∃ q r, Number.div (.int (-2147483648)) (.int (-1)) = .ok (.int q) ∧
      Number.rem (.int (-2147483648)) (.int (-1)) = .ok (.int r) ∧
      r.toInt.natAbs < 1 ∧ q.toInt = (2147483648 : Int).bmod (2 ^ 32) := by
  intro sum
  obtain ⟨htree, hpower, hdivision⟩ := integers_modular
  refine ⟨htree sum _ (.binary _ rfl (.int _ _) (.int _ _)) (.new 2) (by decide),
    hpower 10 10 (by decide), ?_⟩
  obtain ⟨q, r, hq, hr, hlt, -, hvalue, -⟩ := (hdivision (-2147483648) (-1)).2.2 (by decide)
  exact ⟨q, r, hq, hr, hlt, hvalue⟩

end ScopeScript
