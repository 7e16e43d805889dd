import MsgPack.Error.Message

/-!
Where bytes go. They arrive in runs. A buffer takes every run; a block of
memory takes a run whole or not at all; a stream that accepts a limited number
of bytes keeps the leading part of the run that goes beyond.
-/

namespace MsgPack

inductive SinkKind where
  | buffer
  | memory (capacity : Nat)
  | stream (accepts : Option Nat)
  deriving DecidableEq, Repr

/-- A sink and what has landed in it. -/
structure Sink where
  kind : SinkKind
  out : Array UInt8 := #[]
  deriving DecidableEq, Repr

namespace Sink

def written (s : Sink) : Nat := s.out.size

/-- The room that is left, if there is an end to it. -/
def room? (s : Sink) : Option Nat :=
  match s.kind with
  | .buffer | .stream none => none
  | .memory n | .stream (some n) => some (n - s.out.size)

def append (s : Sink) (run : Bytes) : Sink := { s with out := s.out ++ run }

end Sink

/-- A writing step: ends with a value or an error, and in either case with what
has landed so far. -/
abbrev Put : Type → Type := EStateM Error Sink

namespace Put

/-- Hands one run to the sink. -/
def run (bytes : Bytes) : Put Unit := fun s =>
  match s.kind with
  | .buffer | .stream none => .ok () (s.append bytes)
  | .memory capacity =>
    let left := capacity - s.written
    if bytes.length ≤ left then .ok () (s.append bytes)
    else .error (.bufferFull (.memory bytes.length left)) s
  | .stream (some accepts) =>
    let left := accepts - s.written
    if bytes.length ≤ left then .ok () (s.append bytes)
    else .error (.bufferFull (.stream bytes.length)) (s.append (bytes.take left))

end Put

end MsgPack
