import MsgPack.Decimal.Basic

/-!
Numbers at a glance: six significant digits, trailing zeros left out, in
exponential notation when the leading digit is below the fourth decimal place
or above the sixth whole one. This is how a number is named in messages.
-/

namespace MsgPack.Decimal

def significantDigits : Nat := 6

/-- The leading digits of a positive fraction, rounded to nearest with ties to
even, and the exponent of the first. Rounding up to a power of ten moves the
exponent. -/
def round (a : Fraction) : Nat × Int :=
  let e := leadingExponent a
  let scaled := a.scale (significantDigits - 1 - e)
  let n := roundDiv scaled.num scaled.den
  if n = 10 ^ significantDigits then (10 ^ (significantDigits - 1), e + 1) else (n, e)

def general (x : Double) : String :=
  signed x.negative <|
    if x.isNaN then ['n', 'a', 'n']
    else if x.isInfinite then ['i', 'n', 'f']
    else if x.magnitude = 0 then ['0']
    else
      let (n, e) := round (.ofDyadic x.dyadic)
      let ds := dropTrailingZeros (digits n)
      if e < -4 ∨ (significantDigits : Int) ≤ e then exponential ds e else positional ds e

end MsgPack.Decimal
