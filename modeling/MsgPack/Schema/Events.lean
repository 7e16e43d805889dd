import MsgPack.Schema.Basic
import MsgPack.Writer.Event

/-!
How objects are told to a writer. Structs are maps of field names to values. A
union is the name of its alternative, or a map of that name to the content.
-/

namespace MsgPack

mutual

def Schema.events : (s : Schema) → s.Val → List Event
  | .nil, _ => [.nil]
  | .bool, b => [.bool b]
  | .int t _, i => [.int t i]
  | .carried t, (i : IntType.Value _) => [.int t.widest (t.widest.wrap i.val)]
  | .float p, x => [.float p x]
  | .number, n => [Event.number n]
  | .char, (c : UInt32) => [.char c.toNat]
  | .text .., bs => [.text bs]
  | .binary _, bs => Event.binary bs
  | .extension _, e => [.extension e]
  | .fixedExtension _, (e : FixedExtension _) => [.extension e.ext]
  | .timestamp _, (t : Timestamp _) => [.extension t.toExtension]
  | .instant _, (t : Instant _) =>
    let ⟨_, stamp⟩ := Timestamp.smallest t.toNanos
    [.extension stamp.toExtension]
  | .value _, (v : OwnedValue) => v.events
  | .list s, (xs : List s.Val) =>
    .beginArray (some xs.length) :: (xs.flatMap s.events ++ [.endArray])
  | .map k v, (es : List (k.Val × v.Val)) =>
    let entry (e : k.Val × v.Val) : List Event := .key :: (k.events e.1 ++ v.events e.2)
    .beginMap (some es.length) :: (es.flatMap entry ++ [.endMap])
  | .option _, none => [.nil]
  | .option s, some x => s.events x
  | .tuple r, x => .beginArray (some r.length) :: (r.events x ++ [.endArray])
  | .struct r, x => .beginMap (some r.length) :: (r.fieldEvents x ++ [.endMap])
  | .variant a, x => a.events x

/-- The items one after another. -/
def Row.events : (r : Row) → r.Val → List Event
  | .nil, _ => []
  | .cons _ s rest, (x, xs) => s.events x ++ rest.events xs

/-- The items as entries of a map. -/
def Row.fieldEvents : (r : Row) → r.Val → List Event
  | .nil, _ => []
  | .cons name s rest, (x, xs) => Event.field name ++ s.events x ++ rest.fieldEvents xs

def Alternatives.events : (a : Alternatives) → a.Val → List Event
  | .last name c, x => c.events name x
  | .cons name c _, .inl x => c.events name x
  | .cons _ _ rest, .inr x => rest.events x

def Content.events : (c : Content) → (name : Bytes) → c.Val → List Event
  | .unit, name, _ => [.text name]
  | .item s, name, x => Event.beginVariant name ++ s.events x ++ [.endMap]

end

end MsgPack
