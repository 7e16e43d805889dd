import MsgPack.Extension
import MsgPack.Sink

/-!
Writing single entities. Every step tells how many bytes it has written. A
marker goes out in one run with the fixed-size content behind it; a payload is
a run of its own.
-/

namespace MsgPack.Put

/-- The greatest length that the format can announce. -/
def maxLength : Nat := 0xffffffff

/-- Lengths beyond 32 bits are refused before anything is written. -/
def checkLength (what : Sized) (n : Nat) : Put Unit :=
  if n ≤ maxLength then pure () else throw (.invalidFormat (.length what n))

def marker (m : Marker) : Put Nat := do
  run [m.toByte]
  return 1

/-- A code and a number of `width` bytes. -/
def scalar (code : Typecode) (width n : Nat) : Put Nat := do
  run (code.toByte :: Bytes.ofNat width n)
  return 1 + width

def nil : Put Nat := marker ⟨.nil, 0⟩

def bool (b : Bool) : Put Nat := marker ⟨if b then .boolTrue else .boolFalse, 0⟩

/-- The marker that is the whole encoding of a small integer: of the unsigned
bytes the lower half, of the signed ones those from -32 to -1. -/
def fixint? (t : IntType) (i : Int) : Option Marker :=
  match t with
  | .u8 => if i ≤ 0x7f then some (.positiveFixint (UInt8.ofInt i)) else none
  | .i8 => if -32 ≤ i ∧ i < 0 then some (.negativeFixint (UInt8.ofInt i)) else none
  | _ => none

/-- An integer in the encoding of its own type. -/
def int (t : IntType) (i : t.Value) : Put Nat :=
  match fixint? t i.val with
  | some m => marker m
  | none => scalar t.typecode t.bytes (t.toBits i)

def float (p : Precision) (x : FloatBits p) : Put Nat :=
  scalar p.typecode p.bytes x.toNat

/-! ### Headers

Each of the five families announces a length. -/

/-- The length of a string or binary, in one, two or four bytes under the three
codes of the family. -/
def sizedHeader (code8 code16 code32 : Typecode) (n : Nat) : Put Nat :=
  if n ≤ 0xff then scalar code8 1 n
  else if n ≤ 0xffff then scalar code16 2 n
  else scalar code32 4 n

def textHeader (n : Nat) : Put Nat := do
  checkLength .string n
  if n < 32 then marker (.fixstr (UInt8.ofNat n))
  else sizedHeader .str8 .str16 .str32 n

def binaryHeader (n : Nat) : Put Nat := do
  checkLength .binary n
  sizedHeader .bin8 .bin16 .bin32 n

def arrayHeader (n : Nat) : Put Nat := do
  checkLength .array n
  if n < 16 then marker (.fixarray (UInt8.ofNat n))
  else if n ≤ 0xffff then scalar .array16 2 n
  else scalar .array32 4 n

/-- `n` counts entries. -/
def mapHeader (n : Nat) : Put Nat := do
  checkLength .map n
  if n < 16 then marker (.fixmap (UInt8.ofNat n))
  else if n ≤ 0xffff then scalar .map16 2 n
  else scalar .map32 4 n

/-- Marker, length where the marker does not imply it, and type code. -/
def extensionHeaderBytes (type : Int8) (n : Nat) : Bytes :=
  let marked (code : Typecode) (width : Nat) : Bytes :=
    code.toByte :: (Bytes.ofNat width n ++ [type.toUInt8])
  match n with
  | 1 => marked .fixext1 0
  | 2 => marked .fixext2 0
  | 4 => marked .fixext4 0
  | 8 => marked .fixext8 0
  | 16 => marked .fixext16 0
  | n =>
    if n ≤ 0xff then marked .ext8 1
    else if n ≤ 0xffff then marked .ext16 2
    else marked .ext32 4

def extensionHeader (type : Int8) (n : Nat) : Put Nat := do
  checkLength .extension n
  let header := extensionHeaderBytes type n
  run header
  return header.length

/-! ### Payloads -/

def text (bs : Bytes) : Put Nat := do
  let n ← textHeader bs.length
  run bs
  return n + bs.length

def binary (bs : Bytes) : Put Nat := do
  let n ← binaryHeader bs.length
  run bs
  return n + bs.length

def extension (e : Extension) : Put Nat := do
  let n ← extensionHeader e.type e.data.length
  run e.data
  return n + e.data.length

end MsgPack.Put
