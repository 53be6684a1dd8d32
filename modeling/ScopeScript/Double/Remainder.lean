/-
  ScopeScript.Double.Remainder

  The remainder of two doubles with the quotient truncated toward zero. It is
  always exactly representable, so it is computed without rounding: both
  magnitudes are written over one power of two, `m * 2 ^ s` and `n * 2 ^ s`, and
  the remainder is `m % n` over the same power.
-/
import ScopeScript.Double

namespace ScopeScript
namespace Double

/-- The double with the magnitude `m * 2 ^ s`, for an `m` of at most fifty-three
    bits and `-1074 ≤ s`: the significand is shifted left until its top bit is in place
    or the least scale is reached. -/
def ofScaled (negative : Bool) (m : Nat) (s : Int) : Double :=
  let shift := min (52 - Nat.log2 m) (s + 1074).toNat
  let significand := m <<< shift
  -- Without its top bit it is subnormal, and the exponent field is zero.
  if significand < hiddenBit then ofParts negative significand
  else ofParts negative (significand - hiddenBit + (s - shift + 1075).toNat * hiddenBit)

/-- The significands of two doubles over their common scale, and that scale. -/
def overCommonScale (a b : Double) : Nat × Nat × Int :=
  let s := min a.scale b.scale
  (a.significand <<< (a.scale - s).toNat, b.significand <<< (b.scale - s).toNat, s)

/-- What is left of `a` when a whole number of times `b` is taken away, with the
    sign of `a` and a magnitude below that of `b`. -/
def rem (a b : Double) : Double :=
  if a.isNaN || b.isNaN || a.isInfinite || b.isZero then nan
  else if b.isInfinite then a
  else
    let (m, n, s) := overCommonScale a b
    ofScaled a.isNegative (m % n) s

end Double
end ScopeScript
