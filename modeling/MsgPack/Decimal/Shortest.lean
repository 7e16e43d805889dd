import MsgPack.Decimal.Basic

/-!
The shortest digits that read back as the same double, and among those the
nearest to it, in plain notation.
-/

namespace MsgPack.Decimal

/-- The reals that round to a double: everything between the midpoints to its
neighbours, which are included when its mantissa is even. Below a power of two
the numbers are closer by half. -/
structure Rounding where
  low : Fraction
  high : Fraction
  closed : Bool

def Rounding.ofDyadic (d : Dyadic) : Rounding :=
  let m := d.mantissa
  let low : Dyadic :=
    if m = 2 ^ Precision.double.fractionBits ∧ Precision.double.minExponent < d.exponent then
      ⟨false, 4 * m - 1, d.exponent - 2⟩
    else
      ⟨false, 2 * m - 1, d.exponent - 1⟩
  { low := .ofDyadic low
    high := .ofDyadic ⟨false, 2 * m + 1, d.exponent - 1⟩
    closed := m % 2 == 0 }

def Rounding.contains (r : Rounding) (a : Fraction) : Bool :=
  if r.closed then r.low.le a && a.le r.high else r.low.lt a && a.lt r.high

/-- The point of the grid of `n` significant digits that reads back as `a`, the
nearer one if both neighbours of `a` do. -/
def onGrid? (r : Rounding) (a : Fraction) (e : Int) (n : Nat) : Option (Nat × Int) :=
  let shift : Int := n - 1 - e
  let scaled := a.scale shift
  let below := scaled.num / scaled.den
  let readsBack (k : Nat) : Bool := r.contains (Fraction.scale ⟨k, 1⟩ (-shift))
  match readsBack below, readsBack (below + 1) with
  | true, true => some (roundDiv scaled.num scaled.den, -shift)
  | true, false => some (below, -shift)
  | false, true => some (below + 1, -shift)
  | false, false => none

/-- Seventeen digits always read back. -/
def maxDigits : Nat := 17

/-- The shortest digits of a finite non-zero double, and the exponent of the
first. -/
def shortest? (x : Double) : Option (List Char × Int) :=
  let d := x.dyadic
  let a := Fraction.ofDyadic d
  let grids := (List.range maxDigits).map (· + 1)
  (grids.findSome? (onGrid? (.ofDyadic d) a (leadingExponent a))).map fun (n, k) =>
    let ds := digits n
    (dropTrailingZeros ds, k + ds.length - 1)

/-- Plain notation is for finite numbers with a fraction, from a ten-thousandth
up to fifteen whole digits. -/
def isPlain (x : Double) : Bool :=
  x.isFinite && x.toInt?.isNone &&
    (let a := Fraction.ofDyadic x.dyadic
     Fraction.le ⟨1, 10 ^ 4⟩ a && a.lt ⟨10 ^ 15, 1⟩)

def plain? (x : Double) : Option String :=
  if isPlain x then
    (shortest? x).map fun (ds, e) => signed x.negative (positional ds e)
  else
    none

end MsgPack.Decimal
