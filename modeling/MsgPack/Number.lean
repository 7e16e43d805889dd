import MsgPack.FloatBits.Rounding
import MsgPack.Integer

/-!
Numbers as a reader finds them: integers and floats are kept apart, the width
they were written in is not.
-/

namespace MsgPack

inductive Number where
  | int (i : WireInt)
  | float (x : Double)
  deriving DecidableEq

namespace Number

inductive Kind where
  | positive | negative | floating
  deriving DecidableEq, Repr

def Kind.name : Kind → String
  | positive => "positive_int"
  | negative => "negative_int"
  | floating => "floating"

/-- Zero counts as positive. -/
def kind : Number → Kind
  | int i => if i.val < 0 then .negative else .positive
  | float _ => .floating

def zero : Number := .int ⟨0, by decide⟩

def ofInt {t : IntType} (i : t.Value) : Number := .int i.toWire

/-- Singles are kept as doubles. -/
def ofFloat : (p : Precision) → FloatBits p → Number
  | .single, x => .float (Single.widen x)
  | .double, x => .float x

def isInteger : Number → Bool
  | int _ => true
  | float _ => false

/-- The integer of type `t` that a number is. Floats are no integers here, not
even the integral ones. -/
def toInt? (t : IntType) : Number → Option t.Value
  | int i => t.ofInt? i.val
  | float _ => none

def toDouble? : Number → Option Double
  | int _ => none
  | float x => some x

/-- The nearest double. -/
def toDouble : Number → Double
  | int i => .ofInt i.val
  | float x => x

/-- The float of the given width nearest to a floating number. A finite number
beyond the greatest single has none. -/
def toFloat? : (p : Precision) → Number → Option (FloatBits p)
  | _, int _ => none
  | .double, float x => some x
  | .single, float x =>
    if x.isFinite && !x.withinSingle then none else some x.narrow

/-- Integers and floats are never equal; floats are equal as numbers. -/
instance : BEq Number where
  beq
    | int i, int j => i.val == j.val
    | float x, float y => x == y
    | _, _ => false

end Number

/-- The integer that a double is, if it is one and 64 bits hold it. -/
def Double.toWireInt? (x : Double) : Option WireInt :=
  x.toInt?.bind WireInt.ofInt?

end MsgPack
