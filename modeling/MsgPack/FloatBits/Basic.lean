import MsgPack.Bytes

/-!
Floating-point numbers as the bit patterns the format carries. Everything a
codec asks of them (what they are worth, whether they are equal, whether they
are integers) is decided on the bits in exact arithmetic.
-/

namespace MsgPack

/-- The two widths of IEEE 754 binary numbers that the format has. -/
inductive Precision where
  | single
  | double
  deriving DecidableEq, Repr

namespace Precision

def exponentBits : Precision → Nat
  | single => 8
  | double => 11

/-- Bits of the significand that are written down. -/
def fractionBits : Precision → Nat
  | single => 23
  | double => 52

def bytes : Precision → Nat
  | single => 4
  | double => 8

/-- All bits but the sign. -/
abbrev magnitudeBits (p : Precision) : Nat := p.exponentBits + p.fractionBits

/-- The exponent of the least positive number, which is also that of one unit
in the last place of every subnormal. -/
def minExponent : Precision → Int
  | single => -149
  | double => -1074

/-- The magnitude of an infinity: an exponent of all ones over a zero
fraction. Every finite magnitude is below it, every NaN above. -/
def infinityMagnitude (p : Precision) : Nat :=
  (2 ^ p.exponentBits - 1) * 2 ^ p.fractionBits

/-- The bit that tells a quiet NaN. -/
def quietBit (p : Precision) : Nat := 2 ^ (p.fractionBits - 1)

theorem infinityMagnitude_lt (p : Precision) :
    p.infinityMagnitude < 2 ^ p.magnitudeBits := by
  cases p <;> decide

end Precision

/-- A sign over a magnitude. Magnitudes are ordered as the numbers they stand
for. -/
structure FloatBits (p : Precision) where
  negative : Bool
  magnitude : Nat
  lt : magnitude < 2 ^ p.magnitudeBits
  deriving DecidableEq

abbrev Single := FloatBits .single
abbrev Double := FloatBits .double

/-- The number `± mantissa * 2 ^ exponent`. -/
structure Dyadic where
  negative : Bool
  mantissa : Nat
  exponent : Int
  deriving DecidableEq, Repr

namespace Dyadic

/-- The integer a dyadic number is, if it is one. -/
def toInt? (d : Dyadic) : Option Int :=
  let signed (n : Nat) : Int := if d.negative then -n else n
  if 0 ≤ d.exponent then
    some (signed (d.mantissa * 2 ^ d.exponent.toNat))
  else
    let scale := 2 ^ (-d.exponent).toNat
    if d.mantissa % scale = 0 then some (signed (d.mantissa / scale)) else none

def ofInt (i : Int) : Dyadic := ⟨decide (i < 0), i.natAbs, 0⟩

end Dyadic

namespace FloatBits

variable {p : Precision}

def zero : FloatBits p := ⟨false, 0, Nat.two_pow_pos _⟩

/-- The pattern as one unsigned number, the sign on top. -/
def toNat (x : FloatBits p) : Nat :=
  (if x.negative then 2 ^ p.magnitudeBits else 0) + x.magnitude

/-- The pattern in the low bits of `n`. -/
def ofNat (n : Nat) : FloatBits p :=
  ⟨n.testBit p.magnitudeBits, n % 2 ^ p.magnitudeBits, Nat.mod_lt _ (Nat.two_pow_pos _)⟩

def isFinite (x : FloatBits p) : Bool := x.magnitude < p.infinityMagnitude

def isInfinite (x : FloatBits p) : Bool := x.magnitude == p.infinityMagnitude

def isNaN (x : FloatBits p) : Bool := p.infinityMagnitude < x.magnitude

/-- Equality of numbers: the two zeros are equal, and a NaN equals nothing. -/
instance : BEq (FloatBits p) where
  beq x y :=
    !x.isNaN && !y.isNaN &&
      (x.magnitude == y.magnitude && (x.negative == y.negative || x.magnitude == 0))

/-- What a finite pattern is worth. -/
def dyadic (x : FloatBits p) : Dyadic :=
  let field := x.magnitude / 2 ^ p.fractionBits
  let fraction := x.magnitude % 2 ^ p.fractionBits
  if field = 0 then
    ⟨x.negative, fraction, p.minExponent⟩
  else
    ⟨x.negative, 2 ^ p.fractionBits + fraction, p.minExponent + (field - 1 : Nat)⟩

/-- The integer a finite number is, if it is one. The negative zero is 0. -/
def toInt? (x : FloatBits p) : Option Int :=
  if x.isFinite then x.dyadic.toInt? else none

/-- The order of numbers. The two zeros are level, and a NaN is level with
everything, as it is to all who only ask which of two numbers is the less. -/
def compare (x y : FloatBits p) : Ordering :=
  let signed (z : FloatBits p) : Int := if z.negative then -z.magnitude else z.magnitude
  if x.isNaN || y.isNaN then .eq else Ord.compare (signed x) (signed y)

end FloatBits

end MsgPack
