/-
  ScopeScript.Number

  The numbers of the language and their arithmetic. Integers are of 32 bits and
  wrap around; an operation on two of them stays among them. As soon as one
  operand is a double, both are. A zero divisor of either kind is an error. A
  power is an integer only for an integer base and an integer exponent that is
  not negative.
-/
import ScopeScript.Double.Remainder
import ScopeScript.RuntimeError

namespace ScopeScript

inductive Number where
  | int (value : Int32)
  | double (value : Double)
deriving DecidableEq

namespace Number

def toDouble : Number → Double
  | int n => .ofInt n.toInt
  | double d => d

def isZero : Number → Bool
  | int n => n = 0
  | double d => d.isZero

/-- One operation on two integers, another one on any other pair. -/
def combine (onInts : Int32 → Int32 → Int32) (onDoubles : Double → Double → Double) :
    Number → Number → Number
  | int a, int b => int (onInts a b)
  | a, b => double (onDoubles a.toDouble b.toDouble)

def add : Number → Number → Number :=
  combine (· + ·) Double.add

def sub : Number → Number → Number :=
  combine (· - ·) Double.sub

def mul : Number → Number → Number :=
  combine (· * ·) Double.mul

/-- The quotient, truncated toward zero between integers. -/
def div (a b : Number) : Except RuntimeFault Number :=
  if b.isZero then .error .divisionByZero else .ok (combine (· / ·) Double.div a b)

/-- The remainder, which has the sign of the dividend. -/
def rem (a b : Number) : Except RuntimeFault Number :=
  if b.isZero then .error .divisionByZero else .ok (combine (· % ·) Double.rem a b)

/-- A power of an integer, by squaring. -/
def intPower (base : Int32) (exponent : Nat) : Int32 :=
  if exponent = 0 then 1
  else
    let half := intPower (base * base) (exponent / 2)
    if exponent % 2 = 1 then base * half else half
termination_by exponent
decreasing_by omega

def pow : Number → Number → Number
  | int base, int exponent =>
    if 0 ≤ exponent.toInt then int (intPower base exponent.toInt.toNat)
    else double ((int base).toDouble.pow (int exponent).toDouble)
  | base, exponent => double (base.toDouble.pow exponent.toDouble)

end Number

end ScopeScript
