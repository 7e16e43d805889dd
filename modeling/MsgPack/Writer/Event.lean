import MsgPack.Extension
import MsgPack.Number
import MsgPack.Value.Basic

/-!
A tree, told in depth-first order. Containers announce their length before
their first element, binaries may come in pieces, and each key of a map is
announced as one. Whatever consumes such a telling is a writer.
-/

namespace MsgPack

/-- One call of a writer. The length of a container or binary is `none` if the
teller does not know it. -/
inductive Event where
  | nil
  | bool (b : Bool)
  | int (t : IntType) (i : t.Value)
  | float (p : Precision) (x : FloatBits p)
  /-- One character, as a text. -/
  | char (cp : Nat)
  | text (bs : Bytes)
  | extension (e : Extension)
  | beginBinary (size : Option Nat)
  | chunk (bs : Bytes)
  | endBinary
  | beginArray (elems : Option Nat)
  | endArray
  | beginMap (entries : Option Nat)
  | endMap
  /-- The next element is a key. -/
  | key

namespace Event

/-- Integers are told in the widest type of their sign, floats as doubles. -/
def number : Number → Event
  | .int i =>
    let t : IntType := if i.val < 0 then .i64 else .u64
    .int t (t.wrap i.val)
  | .float x => .float .double x

/-- A binary in one piece. -/
def binary (bs : Bytes) : List Event := [.beginBinary (some bs.length), .chunk bs, .endBinary]

/-- What precedes the content of an alternative: the map that holds it alone,
and its name. -/
def beginVariant (name : Bytes) : List Event := [.beginMap (some 1), .key, .text name]

/-- What precedes the value of a field. -/
def field (name : Bytes) : List Event := [.key, .text name]

end Event

namespace Value

mutual

/-- The telling of a value. -/
def events : OwnedValue → List Event
  | .nil => [.nil]
  | .bool b => [.bool b]
  | .binary bs => Event.binary bs
  | .extension t bs => [.extension ⟨t, bs⟩]
  | .number n => [Event.number n]
  | .string bs => [.text bs]
  | .array elems => .beginArray (some elems.length) :: (elemEvents elems ++ [.endArray])
  | .map entries => .beginMap (some entries.length) :: (entryEvents entries ++ [.endMap])

def elemEvents : List OwnedValue → List Event
  | [] => []
  | v :: vs => events v ++ elemEvents vs

def entryEvents : List (OwnedValue × OwnedValue) → List Event
  | [] => []
  | (k, v) :: es => .key :: (events k ++ events v ++ entryEvents es)

end

end Value

/-- Consumers of events. -/
class Writer (ω : Type) where
  step : Event → EStateM Error ω Unit

namespace Writer

/-- Consumes events up to the first one that is refused. -/
def run {ω : Type} [Writer ω] (events : List Event) : EStateM Error ω Unit :=
  events.forM step

end Writer

end MsgPack
