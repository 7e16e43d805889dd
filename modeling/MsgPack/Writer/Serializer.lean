import MsgPack.Wire.Policy
import MsgPack.Writer.Event
import MsgPack.Writer.Scope

/-!
The writer that encodes every event at once. Headers precede elements, so that
a container of unknown length cannot be written.
-/

namespace MsgPack

structure Serializer where
  policy : EncodePolicy := .lossless
  sink : Sink
  scopes : Scopes := []
  /-- Bytes encoded since the start, or since the last time it was cleared. -/
  written : Nat := 0

namespace Serializer

abbrev Step : Type → Type := EStateM Error Serializer

def onSink {α : Type} (put : Put α) : Step α := fun ⟨policy, sink, scopes, written⟩ =>
  match put sink with
  | .ok a sink => .ok a ⟨policy, sink, scopes, written⟩
  | .error e sink => .error e ⟨policy, sink, scopes, written⟩

def onScopes {α : Type} (step : Scopes.Step α) : Step α :=
  fun ⟨policy, sink, scopes, written⟩ =>
    match step scopes with
    | .ok a scopes => .ok a ⟨policy, sink, scopes, written⟩
    | .error e scopes => .error e ⟨policy, sink, scopes, written⟩

/-- Writes bytes that are counted once all of them have landed. -/
def emit (put : Put Nat) : Step Unit := do
  let n ← onSink put
  modify fun s => { s with written := s.written + n }

/-- One element. It is accounted for before it is encoded. -/
def element (put : Put Nat) : Step Unit := do
  onScopes Scopes.nextElement
  emit put

/-- The header of a container, whose scope is opened once it is written. -/
def openScope (kind : ScopeKind) (what : Sized) (size : Option Nat) (header : Nat → Put Nat) :
    Step Unit := do
  match size with
  | none => throw (.lengthUnknown (.elements what))
  | some n =>
    element (header n)
    onScopes (Scopes.enter kind n)

def step (event : Event) : Step Unit := do
  let policy := (← get).policy
  match event with
  | .nil => element Put.nil
  | .bool b => element (Put.bool b)
  | .int t i => element (policy.int t i)
  | .float p x => element (policy.float p x)
  | .char cp =>
    match Utf8.encode? cp with
    | some bs => element (Put.text bs)
    | none => throw (.invalidFormat (.codePoint cp))
  | .text bs => element (Put.text bs)
  | .extension e => element (Put.extension e)
  | .beginBinary size => openScope .binary .binary size Put.binaryHeader
  | .chunk bs =>
    onScopes (Scopes.appendBinary bs.length)
    emit do
      Put.run bs
      return bs.length
  | .endBinary => onScopes (Scopes.leave .binary)
  | .beginArray elems => openScope .array .array elems Put.arrayHeader
  | .endArray => onScopes (Scopes.leave .array)
  | .beginMap entries => openScope .map .map entries Put.mapHeader
  | .endMap => onScopes (Scopes.leave .map)
  | .key => onScopes Scopes.announceKey

instance : Writer Serializer := ⟨step⟩

/-- Forgets every open scope and the count of bytes, not the bytes. -/
def clear (s : Serializer) : Serializer := { s with scopes := [], written := 0 }

def ofSink (policy : EncodePolicy) (kind : SinkKind) : Serializer := { policy, sink := { kind } }

end Serializer

end MsgPack
