import MsgPack.FloatBits.Basic

/-!
Rounding to nearest, ties to even: the conversions between the two widths and
from integers.
-/

namespace MsgPack

/-- `num / den` to the nearest natural number, a tie to the even one. -/
def roundDiv (num den : Nat) : Nat :=
  let quotient := num / den
  let twice := 2 * (num % den)
  if twice < den then quotient
  else if den < twice then quotient + 1
  else quotient + quotient % 2

namespace FloatBits

variable {p q : Precision}

def infinity (negative : Bool) : FloatBits p :=
  ⟨negative, p.infinityMagnitude, p.infinityMagnitude_lt⟩

/-- The pattern of the given magnitude, or the infinity if it is beyond the
finite ones. -/
def ofMagnitude (negative : Bool) (magnitude : Nat) : FloatBits p :=
  if h : magnitude < p.infinityMagnitude then
    ⟨negative, magnitude, Nat.lt_trans h p.infinityMagnitude_lt⟩
  else
    infinity negative

/-- The number nearest to `d`. The unit in its last place is chosen so that the
mantissa fills the significand, but never below that of the subnormals; a
mantissa that rounds up to the next power of two carries into the exponent
field by itself. -/
def ofDyadic (d : Dyadic) : FloatBits p :=
  if d.mantissa = 0 then
    ofMagnitude d.negative 0
  else
    let top : Int := d.exponent + d.mantissa.log2
    let ulp : Int := max p.minExponent (top - p.fractionBits)
    let mantissa :=
      if ulp ≤ d.exponent then d.mantissa * 2 ^ (d.exponent - ulp).toNat
      else roundDiv d.mantissa (2 ^ (ulp - d.exponent).toNat)
    ofMagnitude d.negative ((ulp - p.minExponent).toNat * 2 ^ p.fractionBits + mantissa)

/-- A NaN of another width keeps its sign and the leading bits of its payload,
and is quiet. -/
def convertNaN (x : FloatBits p) : FloatBits q :=
  let payload := x.magnitude % 2 ^ p.fractionBits
  let payload := payload * 2 ^ q.fractionBits / 2 ^ p.fractionBits
  let payload := if payload.testBit (q.fractionBits - 1) then payload else payload + q.quietBit
  let magnitude := q.infinityMagnitude + payload
  if h : magnitude < 2 ^ q.magnitudeBits then ⟨x.negative, magnitude, h⟩
  else infinity x.negative

/-- The nearest number of another width. -/
def convert (x : FloatBits p) : FloatBits q :=
  if x.isFinite then ofDyadic x.dyadic
  else if x.isInfinite then infinity x.negative
  else x.convertNaN

/-- The number nearest to an integer. -/
def ofInt (i : Int) : FloatBits p := ofDyadic (.ofInt i)

end FloatBits

namespace Single

/-- Every single is a double. -/
def widen (x : Single) : Double := x.convert

end Single

namespace Double

/-- The magnitude of the greatest finite single, as a double. -/
def maxSingleMagnitude : Nat := 0x47efffffe0000000

/-- Whether the magnitude is no greater than that of every finite single. -/
def withinSingle (x : Double) : Bool := x.magnitude ≤ maxSingleMagnitude

def narrow (x : Double) : Single := x.convert

end Double

end MsgPack
