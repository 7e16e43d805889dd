import MsgPack.Bytes

/-!
The three layouts of a timestamp: four bytes of seconds; eight bytes that pack
nanoseconds above 34 bits of seconds; twelve bytes of nanoseconds followed by
signed seconds.
-/

namespace MsgPack

inductive TimestampLayout where
  | seconds32
  | packed64
  | wide96
  deriving DecidableEq, Repr

namespace TimestampLayout

def name : TimestampLayout → String
  | seconds32 => "timestamp32"
  | packed64 => "timestamp64"
  | wide96 => "timestamp96"

def payloadSize : TimestampLayout → Nat
  | seconds32 => 4
  | packed64 => 8
  | wide96 => 12

end TimestampLayout

/-- Nanoseconds in a second. -/
abbrev nanosPerSecond : Nat := 1000000000

end MsgPack
