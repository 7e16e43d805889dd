import MsgPack.Extension
import MsgPack.Source
import MsgPack.Utf8

/-!
Reading single entities. Every step looks at the marker first and refuses one
of another kind before anything is consumed, so that the caller may look for
something else.
-/

namespace MsgPack.Get

def marker : Get Marker := return .ofByte (← peek)

/-- Refuses a marker. -/
def refuse {α : Type} (expected : Expected) (found : Marker) : Get α :=
  throw (.unexpectedFormat (.marker expected found))

/-- A number of `width` bytes. -/
def number (width : Nat) : Get Nat := return Bytes.toNat (← read width).bytes

/-- Consumes the marker and goes on. -/
def after {α : Type} (next : Get α) : Get α := do
  discard byte
  next

/-- The length of a string, binary, extension or container, whichever family
`lengthOf` knows, with the marker consumed. A family answers for a marker
either with the length it holds or with the number of bytes that spell the
length. -/
def length (expected : Expected) (lengthOf : Marker → Option (Nat ⊕ Nat)) : Get Nat := do
  let m ← marker
  match lengthOf m with
  | none => refuse expected m
  | some (.inl n) => after (pure n)
  | some (.inr width) => after (number width)

def textLength (m : Marker) : Option (Nat ⊕ Nat) :=
  match m.code with
  | .fixstr => some (.inl m.payload.toNat)
  | .str8 => some (.inr 1)
  | .str16 => some (.inr 2)
  | .str32 => some (.inr 4)
  | _ => none

def binaryLength (m : Marker) : Option (Nat ⊕ Nat) :=
  match m.code with
  | .bin8 => some (.inr 1)
  | .bin16 => some (.inr 2)
  | .bin32 => some (.inr 4)
  | _ => none

def arrayLength (m : Marker) : Option (Nat ⊕ Nat) :=
  match m.code with
  | .fixarray => some (.inl m.payload.toNat)
  | .array16 => some (.inr 2)
  | .array32 => some (.inr 4)
  | _ => none

def mapLength (m : Marker) : Option (Nat ⊕ Nat) :=
  match m.code with
  | .fixmap => some (.inl m.payload.toNat)
  | .map16 => some (.inr 2)
  | .map32 => some (.inr 4)
  | _ => none

def extensionLength (m : Marker) : Option (Nat ⊕ Nat) :=
  match m.code with
  | .fixext1 => some (.inl 1)
  | .fixext2 => some (.inl 2)
  | .fixext4 => some (.inl 4)
  | .fixext8 => some (.inl 8)
  | .fixext16 => some (.inl 16)
  | .ext8 => some (.inr 1)
  | .ext16 => some (.inr 2)
  | .ext32 => some (.inr 4)
  | _ => none

def textHeader : Get Nat := length .string textLength

def binaryHeader : Get Nat := length .binary binaryLength

def arrayHeader : Get Nat := length .array arrayLength

/-- The number of entries. -/
def mapHeader : Get Nat := length .map mapLength

/-- The type code and the length of the payload. -/
def extensionHeader : Get (Int8 × Nat) := do
  let n ← length .extension extensionLength
  let type ← number 1
  return ((UInt8.ofNat type).toInt8, n)

/-- A string is checked once its bytes have been consumed. -/
def text : Get Payload := do
  let n ← textHeader
  let p ← read n
  if Utf8.isValid p.bytes then return p else throw (.invalidData (.invalidUtf8 n))

def binary : Get Payload := do
  let n ← binaryHeader
  read n

def extension : Get (Int8 × Payload) := do
  let (type, n) ← extensionHeader
  return (type, ← read n)

def nil : Get Unit := do
  let m ← marker
  match m.code with
  | .nil => after (pure ())
  | _ => refuse .nil m

def bool : Get Bool := do
  let m ← marker
  match m.code with
  | .boolTrue => after (pure true)
  | .boolFalse => after (pure false)
  | _ => refuse .boolean m

/-- The value of a fixint, if it is the encoding of an integer of type `t`. -/
def fixint? (t : IntType) (m : Marker) : Option Int :=
  match t, m.code with
  | .u8, .positiveFixint => some m.payload.toNat
  | .i8, .negativeFixint => some m.signedByte.toInt
  | _, _ => none

/-- An integer in the encoding of its own type, and in no other. -/
def exactInt (t : IntType) : Get t.Value := do
  let m ← marker
  match fixint? t m with
  | some i => after (pure (t.wrap i))
  | none =>
    if m.code = t.typecode then after (return t.ofBits (← number t.bytes))
    else refuse (.exactInt t) m

/-- A float in the encoding of its own width. -/
def exactFloat (p : Precision) : Get (FloatBits p) := do
  let m ← marker
  if m.code = p.typecode then after (return .ofNat (← number p.bytes))
  else refuse (.exactFloat p) m

end MsgPack.Get
