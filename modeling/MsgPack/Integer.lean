import MsgPack.Marker

/-!
The eight integer types of the format, and the integers that at least one of
them holds.
-/

namespace MsgPack

inductive IntType where
  | u8 | u16 | u32 | u64
  | i8 | i16 | i32 | i64
  deriving DecidableEq, Repr

namespace IntType

def bytes : IntType → Nat
  | u8 | i8 => 1
  | u16 | i16 => 2
  | u32 | i32 => 4
  | u64 | i64 => 8

/-- How many integers a type has. -/
def modulus : IntType → Nat
  | u8 | i8 => 0x100
  | u16 | i16 => 0x10000
  | u32 | i32 => 0x100000000
  | u64 | i64 => 0x10000000000000000

def isSigned : IntType → Bool
  | u8 | u16 | u32 | u64 => false
  | i8 | i16 | i32 | i64 => true

def min : IntType → Int
  | u8 | u16 | u32 | u64 => 0
  | i8 => -0x80
  | i16 => -0x8000
  | i32 => -0x80000000
  | i64 => -0x8000000000000000

def max : IntType → Int
  | u8 => 0xff
  | u16 => 0xffff
  | u32 => 0xffffffff
  | u64 => 0xffffffffffffffff
  | i8 => 0x7f
  | i16 => 0x7fff
  | i32 => 0x7fffffff
  | i64 => 0x7fffffffffffffff

/-- The widest type of the same signedness. -/
def widest (t : IntType) : IntType := if t.isSigned then i64 else u64

/-- The code of the type's own encoding. -/
def typecode : IntType → Typecode
  | u8 => .uint8
  | u16 => .uint16
  | u32 => .uint32
  | u64 => .uint64
  | i8 => .int8
  | i16 => .int16
  | i32 => .int32
  | i64 => .int64

abbrev Contains (t : IntType) (i : Int) : Prop := t.min ≤ i ∧ i ≤ t.max

/-- The integers of a type. -/
abbrev Value (t : IntType) : Type := { i : Int // t.Contains i }

def ofInt? (t : IntType) (i : Int) : Option t.Value :=
  if h : t.Contains i then some ⟨i, h⟩ else none

/-- The integer of the type that agrees with `i` in the low bits. -/
def wrap (t : IntType) (i : Int) : t.Value :=
  if h : i % t.modulus ≤ t.max then
    ⟨i % t.modulus, by cases t <;> simp only [modulus, Contains, min, max] at * <;> omega⟩
  else
    ⟨i % t.modulus - t.modulus, by
      cases t <;> simp only [modulus, Contains, min, max] at * <;> omega⟩

/-- Two's complement, as an unsigned number. -/
def toBits (t : IntType) (i : t.Value) : Nat := (i.val % t.modulus).toNat

def ofBits (t : IntType) (n : Nat) : t.Value := t.wrap n

end IntType

/-- The integers that fit into 64 bits, signed or unsigned. -/
abbrev WireInt : Type := { i : Int // -0x8000000000000000 ≤ i ∧ i ≤ 0xffffffffffffffff }

namespace WireInt

def ofInt? (i : Int) : Option WireInt :=
  if h : _ then some ⟨i, h⟩ else none

end WireInt

/-- Every integer type is within 64 bits. -/
def IntType.Value.toWire {t : IntType} (i : t.Value) : WireInt :=
  ⟨i.val, by
    have h := i.property
    cases t <;> simp only [IntType.Contains, IntType.min, IntType.max] at h <;> omega⟩

end MsgPack
