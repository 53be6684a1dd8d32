/-
  ScopeScript.Decimal.Layout

  Written forms of doubles. All of them write the shortest digits that read
  back; a `Layout` holds what they decide otherwise: for which exponents the
  digits stand around a decimal point, whether a whole number shows one, how an
  exponent is marked, and which of two equally near digit strings is taken. The
  three layouts of the language are for values shown to the user, for token
  listings, and for JSON documents.
-/
import ScopeScript.Decimal.Shortest

namespace ScopeScript
namespace Decimal

/-- The decisions of one written form. -/
structure Layout where
  /-- Numbers from `10 ^ least` on are written without an exponent, … -/
  least : Int
  /-- … up to and without `10 ^ bound`. -/
  bound : Int
  /-- A whole number ends in `.0`. -/
  wholeMark : Bool
  /-- A positive exponent has a plus sign. -/
  plusSign : Bool
  tie : Tie

/-- Values shown to the user never have an exponent, and whole numbers have no
    decimal point. -/
def shown : Layout := ⟨-400, 400, false, false, .up⟩

/-- Token listings mark doubles by a decimal point or an exponent; the latter
    stands below `10 ^ -4` and from `10 ^ 16` on. -/
def listed : Layout := ⟨-4, 16, true, false, .up⟩

/-- JSON documents write numbers from `10 ^ -5` to `10 ^ 16` without an
    exponent. -/
def json : Layout := ⟨-5, 16, true, true, .even⟩

/-- Digits around a decimal point. -/
def positional (wholeMark : Bool) (ds : Digits) : List Char :=
  if ds.point ≤ 0 then
    '0' :: '.' :: (List.replicate (-ds.point).toNat '0' ++ ds.digits)
  else
    let before := ds.point.toNat
    let whole := ds.digits.take before ++ List.replicate (before - ds.digits.length) '0'
    match ds.digits.drop before with
    | [] => if wholeMark then whole ++ ['.', '0'] else whole
    | after => whole ++ '.' :: after

/-- The decimal digits of an integer, with a minus sign where it is negative. -/
def integer (n : Int) : List Char :=
  if n < 0 then '-' :: digitsOf n.natAbs else digitsOf n.natAbs

/-- One digit before the point, the others after it, and an exponent. -/
def scientific (plusSign : Bool) (ds : Digits) : List Char :=
  let exponent := ds.point - 1
  let mantissa :=
    match ds.digits with
    | d :: e :: more => d :: '.' :: e :: more
    | short => short
  mantissa ++ 'e' ::
    (if plusSign && 0 < exponent then '+' :: integer exponent else integer exponent)

/-- The magnitude of a finite double. -/
def magnitude (layout : Layout) (d : Double) : List Char :=
  if d.isZero then positional layout.wholeMark ⟨['0'], 1⟩
  else
    let ds := shortest layout.tie d
    if layout.least < ds.point ∧ ds.point ≤ layout.bound then positional layout.wholeMark ds
    else scientific layout.plusSign ds

/-- The written form of a double. A NaN has no sign. -/
def write (layout : Layout) (d : Double) : String :=
  if d.isNaN then "NaN"
  else
    let body := if d.isInfinite then ['i', 'n', 'f'] else magnitude layout d
    String.ofList (if d.isNegative then '-' :: body else body)

end Decimal

/-- The written form of an integer: decimal digits after a minus sign if it is
    negative. -/
def intText (n : Int) : String :=
  String.ofList (Decimal.integer n)

end ScopeScript
