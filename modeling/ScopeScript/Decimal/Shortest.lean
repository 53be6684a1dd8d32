/-
  ScopeScript.Decimal.Shortest

  The fewest decimal digits that name a double. A finite positive double is
  `m * 2 ^ q`; the reals that round to it form an interval around it whose ends
  belong to it exactly when `m` is even. Among the decimals `n * 10 ^ e` in that
  interval those with the fewest digits are wanted, and of these the one nearest
  to the double. For each digit count only the two neighbours of the double on
  that decimal grid can be it. All comparisons are between natural numbers over
  a common denominator. Between two equally near neighbours the caller's rule
  for ties decides.
-/
import ScopeScript.Double

namespace ScopeScript
namespace Decimal

/-- Which of two equally near digit strings is taken. -/
inductive Tie where
  /-- The larger one. -/
  | up
  /-- The one whose last digit is even. -/
  | even
deriving DecidableEq

/-- The value `0.d₁d₂d₃… * 10 ^ point` for the digits of a number that does not
    end in zero. -/
structure Digits where
  digits : List Char
  point : Int
deriving DecidableEq

/-- The real interval that rounds to a double, over one denominator: it reaches
    from `low` to `high` around `value`, and `closed` tells whether the ends
    belong to it. -/
structure Interval where
  low : Nat
  value : Nat
  high : Nat
  denominator : Nat
  closed : Bool

/-- The interval of a finite double other than zero. Below a power of two the
    neighbouring doubles are twice as close as above it. -/
def Interval.ofDouble (d : Double) : Interval :=
  let m := d.significand
  let q := d.scale
  let below := if d.fraction = 0 ∧ 1 < d.exponentField then 1 else 2
  let up := 1 <<< q.toNat
  ⟨(4 * m - below) * up, 4 * m * up, (4 * m + 2) * up, 4 <<< (-q).toNat, m % 2 = 0⟩

/-- Whether the real `n / d` is in the interval. -/
def Interval.contains (i : Interval) (n d : Nat) : Bool :=
  if i.closed then i.low * d ≤ n * i.denominator ∧ n * i.denominator ≤ i.high * d
  else i.low * d < n * i.denominator ∧ n * i.denominator < i.high * d

/-- Ten to the given power. -/
def powerOfTen (n : Nat) : Nat :=
  Nat.pow 10 n

/-- The digits of a natural number, the first one first. -/
def digitsOf (n : Nat) : List Char :=
  Nat.toDigits 10 n

/-- The `e` with `10 ^ (e - 1) ≤ value < 10 ^ e`. No positive double is below
    `10 ^ -340`, so the digits of the value times that much can be counted. -/
def Interval.decimalExponent (i : Interval) : Int :=
  ((digitsOf (i.value * powerOfTen 340 / i.denominator)).length : Int) - 340

/-- The neighbours of the value on the grid of multiples of `10 ^ e` that lie in
    the interval: the better one, if there is one. -/
def Interval.onGrid (i : Interval) (tie : Tie) (e : Int) : Option Nat :=
  -- The value is `num / den` steps of the grid, so `n` is its lower neighbour.
  let num := i.value * powerOfTen (-e).toNat
  let den := i.denominator * powerOfTen e.toNat
  let n := num / den
  let left := num % den
  let inside (k : Nat) : Bool := i.contains (k * powerOfTen e.toNat) (powerOfTen (-e).toNat)
  let upperIsNearer : Bool :=
    den < 2 * left || (den = 2 * left && (tie = .up || n % 2 = 1))
  if inside n && !(inside (n + 1) && upperIsNearer) then some n
  else if inside (n + 1) then some (n + 1)
  else none

/-- Try ever finer grids, from `count` digits on, at most `fuel` of them. A
    seventeenth digit always suffices. -/
def Interval.search (i : Interval) (tie : Tie) (exponent : Int) : Nat → Nat → Nat × Int
  | 0, count => (i.value / i.denominator, exponent - count)
  | fuel + 1, count =>
    match i.onGrid tie (exponent - count) with
    | some n => (n, exponent - count)
    | none => i.search tie exponent fuel (count + 1)

/-- Digits without the zeros at their end. -/
def trimZeros (cs : List Char) : List Char :=
  (cs.reverse.dropWhile (· = '0')).reverse

/-- The shortest digits of a finite double other than zero; its sign is left to
    the caller. -/
def shortest (tie : Tie) (d : Double) : Digits :=
  let i := Interval.ofDouble d
  let (n, e) := i.search tie i.decimalExponent 17 1
  let cs := digitsOf n
  ⟨trimZeros cs, e + cs.length⟩

end Decimal
end ScopeScript
