import MsgPack.FloatBits.Rounding

/-!
Decimal digits of exact fractions: where they start, and how they are laid out
around the decimal point.
-/

namespace MsgPack

/-- A non-negative fraction. -/
structure Fraction where
  num : Nat
  den : Nat
  deriving Repr

namespace Fraction

def le (a b : Fraction) : Bool := a.num * b.den ≤ b.num * a.den

def lt (a b : Fraction) : Bool := a.num * b.den < b.num * a.den

/-- The magnitude of a dyadic number. -/
def ofDyadic (d : Dyadic) : Fraction :=
  if 0 ≤ d.exponent then ⟨d.mantissa * 2 ^ d.exponent.toNat, 1⟩
  else ⟨d.mantissa, 2 ^ (-d.exponent).toNat⟩

/-- `a * 10 ^ k` -/
def scale (a : Fraction) (k : Int) : Fraction :=
  if 0 ≤ k then ⟨a.num * 10 ^ k.toNat, a.den⟩ else ⟨a.num, a.den * 10 ^ (-k).toNat⟩

end Fraction

namespace Decimal

/-- The decimal digits of `n`, none for zero. -/
def digits (n : Nat) : List Char := if n = 0 then [] else Nat.toDigits 10 n

/-- The exponent of the leading digit of a positive fraction: `10 ^ e ≤ a` and
`a < 10 ^ (e + 1)`. The lengths of numerator and denominator leave two
candidates. -/
def leadingExponent (a : Fraction) : Int :=
  let e : Int := (digits a.num).length - (digits a.den).length
  if (Fraction.scale ⟨1, 1⟩ e).le a then e else e - 1

def dropTrailingZeros (ds : List Char) : List Char :=
  (ds.reverse.dropWhile (· == '0')).reverse

/-- Digits in positional notation, the first of them worth `10 ^ e`. -/
def positional (ds : List Char) (e : Int) : List Char :=
  if e < 0 then
    '0' :: '.' :: (List.replicate (-e - 1).toNat '0' ++ ds)
  else
    let n := e.toNat + 1
    let whole := ds.take n ++ List.replicate (n - ds.length) '0'
    match ds.drop n with
    | [] => whole
    | rest => whole ++ '.' :: rest

/-- Digits in exponential notation. The exponent has a sign and two digits at
least. -/
def exponential (ds : List Char) (e : Int) : List Char :=
  let exponent := (digits e.natAbs)
  let exponent := List.replicate (2 - exponent.length) '0' ++ exponent
  let mantissa :=
    match ds with
    | [] => []
    | [d] => [d]
    | d :: rest => d :: '.' :: rest
  mantissa ++ 'e' :: (if e < 0 then '-' else '+') :: exponent

def signed (negative : Bool) (text : List Char) : String :=
  String.ofList (if negative then '-' :: text else text)

end Decimal

end MsgPack
