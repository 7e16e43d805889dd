import MsgPack.Extension
import MsgPack.Number

/-!
Values of any shape. A value is generic in what holds its byte content: byte
strings of its own, or views of an input. A map is the sequence of its entries
in the order in which they were written, not a look-up structure.
-/

namespace MsgPack

inductive Value (β : Type) where
  | nil
  | bool (b : Bool)
  | binary (content : β)
  | extension (type : Int8) (content : β)
  | number (n : Number)
  | string (content : β)
  | array (elems : List (Value β))
  | map (entries : List (Value β × Value β))

abbrev OwnedValue := Value Bytes
abbrev ValueRef := Value ByteView

inductive ValueKind where
  | nil | boolean | binary | extension | number | string | array | map
  deriving DecidableEq, Repr

def ValueKind.name : ValueKind → String
  | nil => "nil"
  | boolean => "boolean"
  | binary => "binary"
  | extension => "extension"
  | number => "number"
  | string => "string"
  | array => "array"
  | map => "map"

namespace Value

variable {β γ : Type}

def kind : Value β → ValueKind
  | nil => .nil
  | bool _ => .boolean
  | binary _ => .binary
  | extension .. => .extension
  | number _ => .number
  | string _ => .string
  | array _ => .array
  | map _ => .map

def isNil (v : Value β) : Bool := v.kind == .nil

def asBool? : Value β → Option Bool
  | bool b => some b
  | _ => none

def asNumber? : Value β → Option Number
  | number n => some n
  | _ => none

def asString? : Value β → Option β
  | string s => some s
  | _ => none

def asMap? : Value β → Option (List (Value β × Value β))
  | map entries => some entries
  | _ => none

/-- The integer of type `t` that a value is. -/
def toInt? (t : IntType) (v : Value β) : Option t.Value := v.asNumber?.bind (·.toInt? t)

def toFloat? (p : Precision) (v : Value β) : Option (FloatBits p) :=
  v.asNumber?.bind (·.toFloat? p)

mutual

/-- The value with its byte content replaced. -/
def mapContent (f : β → γ) : Value β → Value γ
  | nil => nil
  | bool b => bool b
  | binary c => binary (f c)
  | extension t c => extension t (f c)
  | number n => number n
  | string c => string (f c)
  | array elems => array (mapElems f elems)
  | map entries => map (mapEntries f entries)

def mapElems (f : β → γ) : List (Value β) → List (Value γ)
  | [] => []
  | v :: vs => mapContent f v :: mapElems f vs

def mapEntries (f : β → γ) : List (Value β × Value β) → List (Value γ × Value γ)
  | [] => []
  | (k, v) :: es => (mapContent f k, mapContent f v) :: mapEntries f es

end

/-- A copy of everything a value borrows. -/
def toOwned (v : ValueRef) : OwnedValue := v.mapContent ByteView.toBytes

/-- A value that borrows from another. -/
def asRef (v : OwnedValue) : ValueRef := v.mapContent ByteView.ofBytes

mutual

/-- Equality, given that of the content. Entries of maps are compared in
order. -/
def beq (eq : β → β → Bool) : Value β → Value β → Bool
  | nil, nil => true
  | bool a, bool b => a == b
  | binary a, binary b => eq a b
  | extension s a, extension t b => s == t && eq a b
  | number a, number b => a == b
  | string a, string b => eq a b
  | array as, array bs => beqElems eq as bs
  | map as, map bs => beqEntries eq as bs
  | _, _ => false

def beqElems (eq : β → β → Bool) : List (Value β) → List (Value β) → Bool
  | [], [] => true
  | a :: as, b :: bs => beq eq a b && beqElems eq as bs
  | _, _ => false

def beqEntries (eq : β → β → Bool) :
    List (Value β × Value β) → List (Value β × Value β) → Bool
  | [], [] => true
  | (j, a) :: as, (k, b) :: bs => beq eq j k && beq eq a b && beqEntries eq as bs
  | _, _ => false

end

instance [BEq β] : BEq (Value β) := ⟨beq (· == ·)⟩

end Value

/-- What can hold byte content. -/
class ByteContent (β : Type) where
  bytes : β → Bytes

instance : ByteContent Bytes := ⟨id⟩

instance : ByteContent ByteView := ⟨ByteView.toBytes⟩

namespace Value

variable {β : Type} [ByteContent β]

/-- The value of the first entry whose key is the given string. -/
def find? (v : Value β) (key : Bytes) : Option (Value β) := do
  let entries ← v.asMap?
  let entry ← entries.find? fun (k, _) => k.asString?.any (ByteContent.bytes · == key)
  return entry.2

end Value

end MsgPack
