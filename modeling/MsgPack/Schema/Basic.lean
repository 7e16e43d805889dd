import MsgPack.Timestamp.Basic
import MsgPack.Value.Codec

/-!
Schemas describe typed data: scalars, containers, structs with named fields and
tagged unions, nested without limit. A schema determines the type of its
objects, so that every function on objects is one function, by recursion on the
schema, and every law one induction.

A record type that contains itself is described level by level: `unfold` gives
the schema of its objects up to a height.
-/

namespace MsgPack

mutual

/-- The shape of an object. Integers and texts also say what a fresh object
starts from; everything else starts from nothing. -/
inductive Schema where
  | nil
  | bool
  | int (t : IntType) (initial : t.Value)
  /-- An integer that is carried as the widest of its signedness. -/
  | carried (t : IntType)
  | float (p : Precision)
  | number
  /-- One character, carried as a text. -/
  | char
  | text (storage : Storage) (initial : Bytes)
  | binary (storage : Storage)
  | extension (storage : Storage)
  | fixedExtension (capacity : Nat)
  | timestamp (l : TimestampLayout)
  | instant (u : TimeUnit)
  | value (storage : Storage)
  | list (elem : Schema)
  /-- A map without duplicate keys, in the order of its keys. -/
  | map (key val : Schema)
  | option (content : Schema)
  /-- A fixed number of elements. -/
  | tuple (elems : Row)
  /-- Named fields, carried as a map of names to values. -/
  | struct (fields : Row)
  /-- One of several named alternatives. -/
  | variant (alts : Alternatives)

/-- Named items in a fixed order. Tuples make no use of the names. -/
inductive Row where
  | nil
  | cons (name : Bytes) (item : Schema) (rest : Row)

/-- The named alternatives of a union, of which there is at least one. -/
inductive Alternatives where
  | last (name : Bytes) (content : Content)
  | cons (name : Bytes) (content : Content) (rest : Alternatives)

/-- What an alternative carries besides its name. -/
inductive Content where
  | unit
  | item (s : Schema)

end

namespace Row

def length : Row → Nat
  | nil => 0
  | cons _ _ rest => rest.length + 1

def names : Row → List Bytes
  | nil => []
  | cons name _ rest => name :: rest.names

/-- `n` unnamed items of one schema. -/
def replicate (s : Schema) : Nat → Row
  | 0 => nil
  | n + 1 => cons [] s (replicate s n)

def ofList : List (Bytes × Schema) → Row
  | [] => nil
  | (name, s) :: rest => cons name s (ofList rest)

end Row

namespace Alternatives

def names : Alternatives → List Bytes
  | last name _ => [name]
  | cons name _ rest => name :: rest.names

end Alternatives

namespace Schema

/-- Integers that start from zero. -/
def intZero (t : IntType) : Schema := .int t (t.wrap 0)

/-- A fixed number of elements of one schema. -/
def vector (n : Nat) (elem : Schema) : Schema := .tuple (.replicate elem n)

/-- The objects of a self-containing record type up to height `n`. -/
def unfold (level : Schema → Schema) : Nat → Schema
  | 0 => .struct .nil
  | n + 1 => level (unfold level n)

end Schema

mutual

/-- The objects of a schema. -/
def Schema.Val : Schema → Type
  | .nil => Unit
  | .bool => Bool
  | .int t _ => t.Value
  | .carried t => t.Value
  | .float p => FloatBits p
  | .number => Number
  | .char => UInt32
  | .text .. => Bytes
  | .binary _ => Bytes
  | .extension _ => Extension
  | .fixedExtension capacity => FixedExtension capacity
  | .timestamp l => Timestamp l
  | .instant u => Instant u
  | .value _ => OwnedValue
  | .list s => List s.Val
  | .map k v => List (k.Val × v.Val)
  | .option s => Option s.Val
  | .tuple r => r.Val
  | .struct r => r.Val
  | .variant a => a.Val

def Row.Val : Row → Type
  | .nil => Unit
  | .cons _ s rest => s.Val × rest.Val

def Alternatives.Val : Alternatives → Type
  | .last _ c => c.Val
  | .cons _ c rest => c.Val ⊕ rest.Val

def Content.Val : Content → Type
  | .unit => Unit
  | .item s => s.Val

end

mutual

/-- What an object is before anything has been read into it. -/
def Schema.fresh : (s : Schema) → s.Val
  | .nil => ()
  | .bool => false
  | .int _ initial => initial
  | .carried t => t.wrap 0
  | .float _ => FloatBits.zero
  | .number => Number.zero
  | .char => (0 : UInt32)
  | .text _ initial => initial
  | .binary _ => ([] : Bytes)
  | .extension _ => (⟨0, []⟩ : Extension)
  | .fixedExtension capacity => FixedExtension.empty capacity
  | .timestamp l => Timestamp.epoch l
  | .instant u => Instant.epoch u
  | .value _ => (Value.nil : OwnedValue)
  | .list s => ([] : List s.Val)
  | .map k v => ([] : List (k.Val × v.Val))
  | .option s => (none : Option s.Val)
  | .tuple r => r.fresh
  | .struct r => r.fresh
  | .variant a => a.fresh

def Row.fresh : (r : Row) → r.Val
  | .nil => ()
  | .cons _ s rest => (s.fresh, rest.fresh)

/-- A fresh union holds its first alternative. -/
def Alternatives.fresh : (a : Alternatives) → a.Val
  | .last _ c => c.fresh
  | .cons _ c _ => .inl c.fresh

def Content.fresh : (c : Content) → c.Val
  | .unit => ()
  | .item s => s.fresh

end

mutual

/-- Equality of objects: of floats as numbers, of everything else part by
part. -/
def Schema.beq : (s : Schema) → s.Val → s.Val → Bool
  | .nil, _, _ => true
  | .bool, (x : Bool), (y : Bool) => x == y
  | .int .., (x : IntType.Value _), (y : IntType.Value _) => x == y
  | .carried _, (x : IntType.Value _), (y : IntType.Value _) => x == y
  | .float _, (x : FloatBits _), (y : FloatBits _) => x == y
  | .number, (x : Number), (y : Number) => x == y
  | .char, (x : UInt32), (y : UInt32) => x == y
  | .text .., (x : Bytes), (y : Bytes) => x == y
  | .binary _, (x : Bytes), (y : Bytes) => x == y
  | .extension _, (x : Extension), (y : Extension) => x == y
  | .fixedExtension _, (x : FixedExtension _), (y : FixedExtension _) => x == y
  | .timestamp _, (x : Timestamp _), (y : Timestamp _) => x == y
  | .instant _, (x : Instant _), (y : Instant _) => x == y
  | .value _, (x : OwnedValue), (y : OwnedValue) => x == y
  | .list s, (x : List s.Val), (y : List s.Val) =>
    x.length == y.length && (x.zip y).all fun (a, b) => s.beq a b
  | .map k v, (x : List (k.Val × v.Val)), (y : List (k.Val × v.Val)) =>
    x.length == y.length && (x.zip y).all fun (a, b) => k.beq a.1 b.1 && v.beq a.2 b.2
  | .option _, none, none => true
  | .option s, some x, some y => s.beq x y
  | .option _, _, _ => false
  | .tuple r, x, y => r.beq x y
  | .struct r, x, y => r.beq x y
  | .variant a, x, y => a.beq x y

def Row.beq : (r : Row) → r.Val → r.Val → Bool
  | .nil, _, _ => true
  | .cons _ s rest, (x, xs), (y, ys) => s.beq x y && rest.beq xs ys

def Alternatives.beq : (a : Alternatives) → a.Val → a.Val → Bool
  | .last _ c, x, y => c.beq x y
  | .cons _ c _, .inl x, .inl y => c.beq x y
  | .cons _ _ rest, .inr x, .inr y => rest.beq x y
  | .cons .., _, _ => false

def Content.beq : (c : Content) → c.Val → c.Val → Bool
  | .unit, _, _ => true
  | .item s, x, y => s.beq x y

end

end MsgPack
