/-
  ScopeScript.Double

  Double-precision numbers as their 64-bit patterns: one sign bit, eleven
  exponent bits, fifty-two fraction bits. A pattern is data, so two doubles are
  the same number of the language exactly when that can be decided from bits:
  `same` is the equality under which doubles are object keys (the two zeros are
  one key, all NaNs are one key), and `orderKey` places them in IEEE total
  order. Sums, products and quotients are the correctly rounded ones.
-/

namespace ScopeScript

/-- A double-precision number, given by its bit pattern. -/
structure Double where
  bits : UInt64
deriving DecidableEq, Inhabited

namespace Double

/-! ## Parts of the pattern -/

/-- The weight of the sign bit, two to the sixty-third. -/
def signBit : Nat := 0x8000000000000000

/-- The weight of the lowest exponent bit, two to the fifty-second. A normal
    number has it as the hidden top bit of its significand. -/
def hiddenBit : Nat := 0x10000000000000

/-- The sign bit. -/
def isNegative (d : Double) : Bool :=
  signBit ≤ d.bits.toNat

/-- The pattern without its sign bit. -/
def magnitude (d : Double) : Nat :=
  d.bits.toNat % signBit

/-- The eleven exponent bits. -/
def exponentField (d : Double) : Nat :=
  d.magnitude / hiddenBit

/-- The fifty-two fraction bits. -/
def fraction (d : Double) : Nat :=
  d.magnitude % hiddenBit

/-- The magnitude of both infinities; a larger one is a NaN's. -/
def infiniteMagnitude : Nat :=
  2047 * hiddenBit

def isNaN (d : Double) : Bool :=
  infiniteMagnitude < d.magnitude

def isInfinite (d : Double) : Bool :=
  d.magnitude = infiniteMagnitude

def isFinite (d : Double) : Bool :=
  d.magnitude < infiniteMagnitude

def isZero (d : Double) : Bool :=
  d.magnitude = 0

/-- The integer `m` with `|d| = m * 2 ^ d.scale`, for a finite `d`. -/
def significand (d : Double) : Nat :=
  if d.exponentField = 0 then d.fraction else d.fraction + hiddenBit

/-- The exponent of two of the last significand bit. -/
def scale (d : Double) : Int :=
  if d.exponentField = 0 then -1074 else (d.exponentField : Int) - 1075

/-- The double with a given sign and magnitude. -/
def ofParts (negative : Bool) (magnitude : Nat) : Double :=
  ⟨UInt64.ofNat (if negative then magnitude % signBit + signBit else magnitude % signBit)⟩

def zero : Double := ⟨0⟩

def one : Double := ⟨0x3FF0000000000000⟩

def infinity : Double := ⟨0x7FF0000000000000⟩

def nan : Double := ⟨0x7FF8000000000000⟩

/-! ## Equality and order -/

/-- Equality of doubles as keys: both zeros are equal, and so are all NaNs. -/
def same (a b : Double) : Bool :=
  if a.isNaN then b.isNaN
  else if a.isZero then b.isZero
  else a.bits = b.bits

/-- The pattern that stands for all doubles equal to this one. -/
def canonical (d : Double) : Double :=
  if d.isZero then zero else if d.isNaN then nan else d

/-- Doubles in IEEE total order have these keys in increasing order: negative
    ones by falling magnitude, then the others by rising magnitude. -/
def orderKey (d : Double) : Int :=
  if d.isNegative then -(d.magnitude : Int) - 1 else d.magnitude

/-! ## Arithmetic -/

/-- The opposite number: the sign bit is flipped, also of a zero or a NaN. -/
def neg (d : Double) : Double :=
  ofParts (!d.isNegative) d.magnitude

def toFloat (d : Double) : Float :=
  Float.ofBits d.bits

def ofFloat (x : Float) : Double :=
  ⟨x.toBits⟩

def add (a b : Double) : Double := ofFloat (a.toFloat + b.toFloat)

def sub (a b : Double) : Double := ofFloat (a.toFloat - b.toFloat)

def mul (a b : Double) : Double := ofFloat (a.toFloat * b.toFloat)

def div (a b : Double) : Double := ofFloat (a.toFloat / b.toFloat)

/-- The power as the platform's mathematics library rounds it. -/
def pow (a b : Double) : Double := ofFloat (Float.pow a.toFloat b.toFloat)

/-- The double of an integer, rounded to nearest. -/
def ofInt (n : Int) : Double :=
  ofFloat (Float.ofInt n)

/-- The double nearest to `digits * 10 ^ exponent`, of two the even one. Far
    outside the range of doubles the answer is infinity or zero without a look
    at the digits. -/
def ofDecimal (digits : Nat) (exponent : Int) : Double :=
  if digits = 0 then zero
  else if 400 < exponent then infinity
  else if (Nat.log2 digits : Int) + 3 * exponent < -1080 then zero
  else ofFloat (Float.ofScientific digits (exponent < 0) exponent.natAbs)

end Double

end ScopeScript
