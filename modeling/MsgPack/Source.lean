import MsgPack.Error.Message

/-!
Where bytes come from. A source in memory lends out views of itself; a stream
can only be copied from. They also differ in what a failed read leaves behind:
memory is left alone, a stream is drained.
-/

namespace MsgPack

/-- What a read yields. -/
structure Payload where
  borrowed : Bool
  view : ByteView

namespace Payload

def bytes (p : Payload) : Bytes := p.view.toBytes

def size (p : Payload) : Nat := p.view.size

def copied (bs : Bytes) : Payload := ⟨false, .ofBytes bs⟩

end Payload

inductive SourceKind where
  | memory
  | stream
  deriving DecidableEq, Repr

/-- The unread part of an input, and how much of it has been read. -/
structure Source where
  kind : SourceKind
  left : Bytes
  position : Nat := 0
  deriving DecidableEq, Repr

namespace Source

def ofBytes (kind : SourceKind) (bs : Bytes) : Source := { kind, left := bs }

/-- The source after `n` more bytes have been read. -/
def advance (s : Source) (n : Nat) : Source :=
  { s with left := s.left.drop n, position := s.position + n }

/-- Streams are copied piecewise, so that a length that is not to be trusted
makes nobody reserve more room than one piece beyond what is there. -/
def pieceSize : Nat := 64 * 1024

/-- The state of a copy: the buffer, how many of its bytes have been copied, and
what is left of the stream. -/
structure Copy where
  buffer : Bytes := []
  filled : Nat := 0
  left : Bytes
  deriving DecidableEq, Repr

namespace Copy

/-- The length of the next piece, of `n` bytes that are wanted in all. -/
def piece (c : Copy) (n : Nat) : Nat := (n - c.filled).min pieceSize

/-- Room is made for the next piece, and what the stream has of it goes there. -/
def turn (c : Copy) (n : Nat) : Copy :=
  let size := c.filled + c.piece n
  let got := c.left.take (c.piece n)
  { buffer := (c.buffer.resize size).overwrite c.filled got
    filled := c.filled + got.length
    left := c.left.drop (c.piece n) }

/-- Copies `n` bytes, piece by piece, up to the first piece that comes short. -/
def fill (c : Copy) (n : Nat) : Copy :=
  if h : c.filled < n then
    let d := c.turn n
    if hd : d.filled = c.filled + c.piece n then
      have : n - d.filled < n - c.filled := by
        have hpiece : 0 < c.piece n := Nat.lt_min.mpr ⟨Nat.sub_pos_of_lt h, by decide⟩
        omega
      d.fill n
    else d
  else c
termination_by n - c.filled
decreasing_by assumption

end Copy

end Source

/-- A reading step: ends with a value or an error, and in either case with a
source. -/
abbrev Get : Type → Type := EStateM Error Source

namespace Get

open EStateM (Result)

/-- The next byte, which stays where it is. -/
def peek : Get UInt8 := fun s =>
  match s.left, s.kind with
  | b :: _, _ => .ok b s
  | [], .memory => .error (.endOfData (.memory 1 0)) s
  | [], .stream => .error (.endOfData .streamEnded) s

def byte : Get UInt8 := do
  let b ← peek
  modify (·.advance 1)
  return b

/-- Exactly `n` bytes. -/
def read (n : Nat) : Get Payload := fun s =>
  match s.kind with
  | .memory =>
    if h : (s.left.take n).length = n then
      .ok ⟨true, s.left, n, by rw [List.length_take] at h; omega⟩ (s.advance n)
    else
      .error (.endOfData (.memory n s.left.length)) s
  | .stream =>
    let c := Source.Copy.fill { left := s.left } n
    let s := { s with left := c.left, position := s.position + c.filled }
    if c.filled = n then .ok (.copied c.buffer) s
    else .error (.endOfData (.stream n c.filled)) s

/-- The view behind a payload, which only memory can give. -/
def borrow (p : Payload) : Get ByteView :=
  if p.borrowed then pure p.view else throw (.invalidData .notBorrowable)

/-- A step from the start of an input. -/
def run {α : Type} (g : Get α) (kind : SourceKind) (input : Bytes) :
    EStateM.Result Error Source α :=
  EStateM.run g (.ofBytes kind input)

end Get

/-- The results of `n` repetitions of a step, which ends at the first failure. -/
def collect {σ α : Type} (step : EStateM Error σ α) (n : Nat) : EStateM Error σ (List α) :=
  go n []
where
  go : Nat → List α → EStateM Error σ (List α)
    | 0, found => pure found.reverse
    | n + 1, found => do
      let x ← step
      go n (x :: found)

end MsgPack
