import MsgPack.Bytes

/-!
Hexadecimal digits, small letters for bytes and capitals for code points.
-/

namespace MsgPack.Hex

/-- The digit for `n`, counting on from the given letter after nine. -/
def digit (ten : Char) (n : Nat) : Char :=
  if n < 10 then Char.ofNat ('0'.toNat + n) else Char.ofNat (ten.toNat + (n - 10))

/-- Two digits for a byte. -/
def byte (b : UInt8) : List Char := [digit 'a' (b.toNat / 16), digit 'a' (b.toNat % 16)]

/-- As many digits as a number needs. -/
def capitals (n : Nat) : List Char := (Nat.toDigits 16 n).map Char.toUpper

end MsgPack.Hex
