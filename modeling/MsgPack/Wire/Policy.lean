import MsgPack.Wire.Get
import MsgPack.Wire.Put

/-!
How numbers choose an encoding, and how much a reader is willing to convert.
-/

namespace MsgPack

inductive EncodePolicy where
  /-- The encoding of the number's own type. -/
  | exact
  /-- The shortest encoding that gives the same number back. -/
  | lossless
  /-- As `lossless`, with integral floats written as integers. -/
  | aggressive
  deriving DecidableEq, Repr

inductive DecodePolicy where
  /-- Only the encoding of the target's own type. -/
  | exact
  /-- Any integer for an integer, any float for a float. -/
  | widening
  /-- As `widening`, and integral floats for integers, integers for floats. -/
  | lenient
  deriving DecidableEq, Repr

/-- The narrowest type of the matching signedness that holds an integer. -/
def IntType.narrowest (i : Int) : IntType :=
  if 0 ≤ i then
    if i ≤ 0xff then u8 else if i ≤ 0xffff then u16 else if i ≤ 0xffffffff then u32 else u64
  else
    if -0x80 ≤ i then i8 else if -0x8000 ≤ i then i16 else if -0x80000000 ≤ i then i32 else i64

namespace Put

def shortestInt (i : WireInt) : Put Nat :=
  let t := IntType.narrowest i.val
  int t (t.wrap i.val)

/-- A single if it is the same number, else a double. -/
def shortestDouble (x : Double) : Put Nat :=
  if x.isFinite && x.withinSingle && x.narrow.widen == x then float .single x.narrow
  else float .double x

end Put

namespace EncodePolicy

def int (policy : EncodePolicy) (t : IntType) (i : t.Value) : Put Nat :=
  match policy with
  | exact => Put.int t i
  | lossless | aggressive => Put.shortestInt i.toWire

/-- Singles are not looked at twice: they are short already. -/
def losslessFloat : (p : Precision) → FloatBits p → Put Nat
  | .single, x => Put.float .single x
  | .double, x => Put.shortestDouble x

/-- The integer that a float is, if it is one and 64 bits hold it. -/
def integral? : (p : Precision) → FloatBits p → Option WireInt
  | .single, x => (Single.widen x).toWireInt?
  | .double, x => Double.toWireInt? x

def float (policy : EncodePolicy) (p : Precision) (x : FloatBits p) : Put Nat :=
  match policy with
  | exact => Put.float p x
  | lossless => losslessFloat p x
  | aggressive =>
    match integral? p x with
    | some i => Put.shortestInt i
    | none => losslessFloat p x

/-- A number of unknown origin is taken for one of the widest type of its
kind. -/
def number (policy : EncodePolicy) : Number → Put Nat
  | .int i =>
    let t : IntType := if i.val < 0 then .i64 else .u64
    policy.int t (t.wrap i.val)
  | .float x => policy.float .double x

end EncodePolicy

/-- The type whose own encoding a code announces. -/
def Typecode.intType? : Typecode → Option IntType
  | .uint8 => some .u8
  | .uint16 => some .u16
  | .uint32 => some .u32
  | .uint64 => some .u64
  | .int8 => some .i8
  | .int16 => some .i16
  | .int32 => some .i32
  | .int64 => some .i64
  | _ => none

def Typecode.precision? : Typecode → Option Precision
  | .float32 => some .single
  | .float64 => some .double
  | _ => none

namespace Get

/-- Any number. -/
def anyNumber : Get Number := do
  let m ← marker
  match m.code with
  | .positiveFixint => return .ofInt (← exactInt .u8)
  | .negativeFixint => return .ofInt (← exactInt .i8)
  | code =>
    match code.intType?, code.precision? with
    | some t, _ => return .ofInt (t.ofBits (← after (number t.bytes)))
    | none, some p => return .ofFloat p (← exactFloat p)
    | none, none => refuse .number m

end Get

namespace DecodePolicy

/-- The value of a number in the target type, or the complaint that it has
none there. -/
def fit {α : Type} (n : Number) : Option α → Get α
  | some x => pure x
  | none => throw (.invalidData (.outOfRange n))

/-- A number for an integer target, where floats may stand for integers. -/
def integerOf? (t : IntType) : Number → Option t.Value
  | .int i => t.ofInt? i.val
  | .float x => x.toWireInt?.bind (t.ofInt? ·.val)

/-- A number for a float target, where integers may stand for floats: the
nearest double, and what is nearest to that. -/
def floatOf? (p : Precision) : Number → Option (FloatBits p)
  | .int i =>
    let x : Double := .ofInt i.val
    match p with
    | .single => some x.narrow
    | .double => some x
  | .float x => Number.toFloat? p (.float x)

def int (policy : DecodePolicy) (t : IntType) : Get t.Value := do
  match policy with
  | exact => Get.exactInt t
  | widening =>
    let m ← Get.marker
    if m.code.entity? = some .integer then
      let n ← Get.anyNumber
      fit n (n.toInt? t)
    else
      Get.refuse .integer m
  | lenient =>
    let m ← Get.marker
    if m.code.entity?.any (·.isNumber) then
      let n ← Get.anyNumber
      fit n (integerOf? t n)
    else
      Get.refuse .number m

def float (policy : DecodePolicy) (p : Precision) : Get (FloatBits p) := do
  match policy with
  | exact => Get.exactFloat p
  | widening =>
    let m ← Get.marker
    if m.code.entity? = some .floatingPoint then
      let n ← Get.anyNumber
      fit n (n.toFloat? p)
    else
      Get.refuse .float m
  | lenient =>
    let m ← Get.marker
    if m.code.entity?.any (·.isNumber) then
      let n ← Get.anyNumber
      fit n (floatOf? p n)
    else
      Get.refuse .number m

end DecodePolicy

end MsgPack
