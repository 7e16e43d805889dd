import MsgPack.Schema.Events
import MsgPack.Schema.Restore
import MsgPack.Writer.Builder
import MsgPack.Writer.Serializer

/-!
Objects to bytes and values, and back, in one call.
-/

namespace MsgPack

namespace Schema

/-- Archives an object into a fresh sink. -/
def archive (s : Schema) (policy : EncodePolicy) (kind : SinkKind) (x : s.Val) :
    EStateM.Result Error Serializer Unit :=
  (Writer.run (s.events x)).run (Serializer.ofSink policy kind)

/-- Reads an object from the start of an input, and answers with the cursor
behind it as well. -/
def restoreFrom (s : Schema) (policy : DecodePolicy) (kind : SourceKind) (input : Bytes) :
    EStateM.Result Error Cursor s.Val :=
  (s.restore s.fresh).run (.ofBytes policy kind input)

/-- The value that an object is archived as. -/
def toValue (s : Schema) (x : s.Val) : Except Error OwnedValue :=
  let build : EStateM Error Builder OwnedValue := do
    Writer.run (s.events x)
    Builder.release
  match build.run .empty with
  | .ok v _ => .ok v
  | .error e _ => .error e

/-- The object that a value is the archive of. The value is encoded exactly and
read back from a stream, which lends nothing, so the object owns what it
holds. -/
def ofValue (s : Schema) (v : OwnedValue) : Except Error s.Val :=
  match EStateM.run (Value.put .exact v) { kind := .buffer } with
  | .error e _ => .error e
  | .ok _ sink =>
    match s.restoreFrom .widening .stream sink.out.toList with
    | .ok x _ => .ok x
    | .error e _ => .error e

end Schema

end MsgPack
