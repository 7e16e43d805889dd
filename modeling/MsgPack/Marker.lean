import MsgPack.Bytes

/-!
The first byte of an encoded value. Its type code says what follows; the fix
families spend the low bits of the byte on a small value or length.
-/

namespace MsgPack

/-- The families of first bytes. `unassigned` is a byte that begins none of
them, so that every byte is the code of something. -/
inductive Typecode where
  | positiveFixint | fixmap | fixarray | fixstr
  | nil | neverUsed | boolFalse | boolTrue
  | bin8 | bin16 | bin32
  | ext8 | ext16 | ext32
  | float32 | float64
  | uint8 | uint16 | uint32 | uint64
  | int8 | int16 | int32 | int64
  | fixext1 | fixext2 | fixext4 | fixext8 | fixext16
  | str8 | str16 | str32
  | array16 | array32
  | map16 | map32
  | negativeFixint
  | unassigned (byte : UInt8)
  deriving DecidableEq, Repr

namespace Typecode

/-- The byte of a family, with the low bits clear where they carry a value. -/
def toByte : Typecode → UInt8
  | positiveFixint => 0x00 | fixmap => 0x80 | fixarray => 0x90 | fixstr => 0xa0
  | nil => 0xc0 | neverUsed => 0xc1 | boolFalse => 0xc2 | boolTrue => 0xc3
  | bin8 => 0xc4 | bin16 => 0xc5 | bin32 => 0xc6
  | ext8 => 0xc7 | ext16 => 0xc8 | ext32 => 0xc9
  | float32 => 0xca | float64 => 0xcb
  | uint8 => 0xcc | uint16 => 0xcd | uint32 => 0xce | uint64 => 0xcf
  | int8 => 0xd0 | int16 => 0xd1 | int32 => 0xd2 | int64 => 0xd3
  | fixext1 => 0xd4 | fixext2 => 0xd5 | fixext4 => 0xd6 | fixext8 => 0xd7
  | fixext16 => 0xd8
  | str8 => 0xd9 | str16 => 0xda | str32 => 0xdb
  | array16 => 0xdc | array32 => 0xdd
  | map16 => 0xde | map32 => 0xdf
  | negativeFixint => 0xe0
  | unassigned byte => byte

def ofByte (b : UInt8) : Typecode :=
  match b.toNat with
  | 0x00 => positiveFixint | 0x80 => fixmap | 0x90 => fixarray | 0xa0 => fixstr
  | 0xc0 => nil | 0xc1 => neverUsed | 0xc2 => boolFalse | 0xc3 => boolTrue
  | 0xc4 => bin8 | 0xc5 => bin16 | 0xc6 => bin32
  | 0xc7 => ext8 | 0xc8 => ext16 | 0xc9 => ext32
  | 0xca => float32 | 0xcb => float64
  | 0xcc => uint8 | 0xcd => uint16 | 0xce => uint32 | 0xcf => uint64
  | 0xd0 => int8 | 0xd1 => int16 | 0xd2 => int32 | 0xd3 => int64
  | 0xd4 => fixext1 | 0xd5 => fixext2 | 0xd6 => fixext4 | 0xd7 => fixext8
  | 0xd8 => fixext16
  | 0xd9 => str8 | 0xda => str16 | 0xdb => str32
  | 0xdc => array16 | 0xdd => array32
  | 0xde => map16 | 0xdf => map32
  | 0xe0 => negativeFixint
  | _ => unassigned b

def name : Typecode → String
  | positiveFixint => "positive_fixint" | fixmap => "fixmap" | fixarray => "fixarray"
  | fixstr => "fixstr"
  | nil => "nil" | neverUsed => "never_used" | boolFalse => "false" | boolTrue => "true"
  | bin8 => "bin8" | bin16 => "bin16" | bin32 => "bin32"
  | ext8 => "ext8" | ext16 => "ext16" | ext32 => "ext32"
  | float32 => "float32" | float64 => "float64"
  | uint8 => "uint8" | uint16 => "uint16" | uint32 => "uint32" | uint64 => "uint64"
  | int8 => "int8" | int16 => "int16" | int32 => "int32" | int64 => "int64"
  | fixext1 => "fixext1" | fixext2 => "fixext2" | fixext4 => "fixext4"
  | fixext8 => "fixext8" | fixext16 => "fixext16"
  | str8 => "str8" | str16 => "str16" | str32 => "str32"
  | array16 => "array16" | array32 => "array32"
  | map16 => "map16" | map32 => "map32"
  | negativeFixint => "negative_fixint"
  | unassigned _ => "unknown"

/-- The families that carry a value or length in the first byte itself. -/
def isFix : Typecode → Bool
  | positiveFixint | fixmap | fixarray | fixstr | negativeFixint => true
  | _ => false

end Typecode

/-- A first byte taken apart. The payload is the low bits of a fix family:
the value of a small integer, the number of elements of a small container,
the length of a short string. -/
structure Marker where
  code : Typecode
  payload : UInt8 := 0
  deriving DecidableEq, Repr

namespace Marker

def positiveFixint (v : UInt8) : Marker := ⟨.positiveFixint, v &&& 0x7f⟩
def negativeFixint (v : UInt8) : Marker := ⟨.negativeFixint, v &&& 0x1f⟩
def fixmap (n : UInt8) : Marker := ⟨.fixmap, n &&& 0x0f⟩
def fixarray (n : UInt8) : Marker := ⟨.fixarray, n &&& 0x0f⟩
def fixstr (n : UInt8) : Marker := ⟨.fixstr, n &&& 0x1f⟩

def ofByte (b : UInt8) : Marker :=
  if b < 0x80 then positiveFixint b
  else if b < 0x90 then fixmap b
  else if b < 0xa0 then fixarray b
  else if b < 0xc0 then fixstr b
  else if b < 0xe0 then ⟨Typecode.ofByte b, 0⟩
  else negativeFixint b

def toByte (m : Marker) : UInt8 :=
  if m.code.isFix then m.code.toByte ||| m.payload else m.code.toByte

/-- The byte read as a signed number, which is the value of a negative
fixint. -/
def signedByte (m : Marker) : Int8 := m.toByte.toInt8

end Marker

/-- What a value is, as far as its first byte tells. -/
inductive EntityType where
  | null | boolean | integer | floatingPoint | string | binary | extension | array | map
  deriving DecidableEq, Repr

namespace EntityType

def name : EntityType → String
  | null => "null"
  | boolean => "boolean"
  | integer => "integer"
  | floatingPoint => "floating_point"
  | string => "string"
  | binary => "binary"
  | extension => "extension"
  | array => "array"
  | map => "map"

def isNumber : EntityType → Bool
  | integer | floatingPoint => true
  | _ => false

end EntityType

/-- No value begins with the code that is never used. -/
def Typecode.entity? : Typecode → Option EntityType
  | .nil => some .null
  | .boolFalse | .boolTrue => some .boolean
  | .positiveFixint | .negativeFixint
  | .uint8 | .uint16 | .uint32 | .uint64
  | .int8 | .int16 | .int32 | .int64 => some .integer
  | .float32 | .float64 => some .floatingPoint
  | .fixstr | .str8 | .str16 | .str32 => some .string
  | .bin8 | .bin16 | .bin32 => some .binary
  | .fixext1 | .fixext2 | .fixext4 | .fixext8 | .fixext16
  | .ext8 | .ext16 | .ext32 => some .extension
  | .fixarray | .array16 | .array32 => some .array
  | .fixmap | .map16 | .map32 => some .map
  | .neverUsed | .unassigned _ => none

end MsgPack
