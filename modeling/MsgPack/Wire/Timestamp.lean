import MsgPack.Timestamp.Basic
import MsgPack.Wire.Get
import MsgPack.Wire.Put

/-!
Timestamps and instants as entities of their own. A layout is read from the
marker that its own encoding begins with, and from no other.
-/

namespace MsgPack

def TimestampLayout.typecode : TimestampLayout → Typecode
  | seconds32 => .fixext4
  | packed64 => .fixext8
  | wide96 => .ext8

namespace Put

def timestamp {l : TimestampLayout} (t : Timestamp l) : Put Nat := extension t.toExtension

def instant {u : TimeUnit} (t : Instant u) : Put Nat :=
  let ⟨_, stamp⟩ := Timestamp.smallest t.toNanos
  timestamp stamp

end Put

namespace Get

/-- A pure step. -/
def ofExcept {σ α : Type} (x : Except Error α) : EStateM Error σ α :=
  match x with
  | .ok a => pure a
  | .error e => throw e

/-- The type code is checked before the payload is read, the size after. -/
def timestamp (l : TimestampLayout) : Get (Timestamp l) := do
  let m ← marker
  if m.code = l.typecode then
    let (type, n) ← extensionHeader
    ofExcept (Timestamp.checkType type)
    let p ← read n
    ofExcept (Timestamp.ofExtension l ⟨type, p.bytes⟩)
  else
    refuse (.timestampIn l) m

def instant (u : TimeUnit) : Get (Instant u) := do
  let m ← marker
  let t ←
    match m.code with
    | .fixext4 => ofExcept (← timestamp .seconds32).toInstant
    | .fixext8 => ofExcept (← timestamp .packed64).toInstant
    | .ext8 => ofExcept (← timestamp .wide96).toInstant
    | _ => refuse .timestamp m
  return t.truncate u

end Get

end MsgPack
