import MsgPack.Bytes

/-!
UTF-8, strictly: no overlong forms, no surrogates, nothing beyond U+10FFFF and
no sequence cut short. Code points are natural numbers, so that the ones that
have no encoding can be talked about.
-/

namespace MsgPack.Utf8

/-- The code points that UTF-8 can spell. -/
def IsScalar (cp : Nat) : Prop :=
  cp ≤ 0x10ffff ∧ ¬(0xd800 ≤ cp ∧ cp ≤ 0xdfff)

instance (cp : Nat) : Decidable (IsScalar cp) :=
  inferInstanceAs (Decidable (_ ∧ _))

/-- A continuation byte, with six bits of the code point. -/
def continuation (bits : Nat) : UInt8 := UInt8.ofNat (0x80 + bits % 64)

/-- The shortest spelling of a scalar value. -/
def encode? (cp : Nat) : Option Bytes :=
  if IsScalar cp then
    if cp < 0x80 then
      some [UInt8.ofNat cp]
    else if cp < 0x800 then
      some [UInt8.ofNat (0xc0 + cp / 64), continuation cp]
    else if cp < 0x10000 then
      some [UInt8.ofNat (0xe0 + cp / 4096), continuation (cp / 64), continuation cp]
    else
      some [UInt8.ofNat (0xf0 + cp / 262144), continuation (cp / 4096),
        continuation (cp / 64), continuation cp]
  else
    none

/-- Spells the code points of `cps` after `out`, leaving out those that are no
scalar values, and says of each whether it was spelled. -/
def appendAll (out : Bytes) (cps : List Nat) : Bytes × List Bool :=
  let spelled := cps.map encode?
  (out ++ spelled.flatMap (·.getD []), spelled.map (·.isSome))

/-- Where a reader stands: between characters, or inside one that has `owed`
continuation bytes to come, spells `value` so far, and is overlong if it ends
below `least`. -/
inductive State where
  | between
  | inside (owed value least : Nat)
  deriving DecidableEq, Repr

/-- What the first byte of a character announces. -/
def State.first (b : UInt8) : Option State :=
  let n := b.toNat
  if n < 0x80 then some .between
  else if n / 32 = 6 then some (.inside 1 (n % 32) 0x80)
  else if n / 16 = 14 then some (.inside 2 (n % 16) 0x800)
  else if n / 8 = 30 then some (.inside 3 (n % 8) 0x10000)
  else none

/-- One more byte. A character is judged when its last byte has come. -/
def State.next (s : State) (b : UInt8) : Option State :=
  match s with
  | .between => State.first b
  | .inside owed value least =>
    if b.toNat / 64 = 2 then
      let value := 64 * value + b.toNat % 64
      if owed ≤ 1 then
        if least ≤ value ∧ IsScalar value then some .between else none
      else
        some (.inside (owed - 1) value least)
    else
      none

def State.accepts : State → Bytes → Bool
  | s, [] => s == .between
  | s, b :: bs =>
    match s.next b with
    | some s => s.accepts bs
    | none => false

/-- Whether `bs` spells a sequence of scalar values. -/
def isValid (bs : Bytes) : Bool := State.accepts .between bs

/-- The code point of a valid string that holds exactly one character. -/
def single? : Bytes → Option Nat
  | [] => none
  | b :: rest =>
    let n := b.toNat
    let (more, high) :=
      if n < 0x80 then (0, n)
      else if n / 32 = 6 then (1, n % 32)
      else if n / 16 = 14 then (2, n % 16)
      else (3, n % 8)
    if rest.length = more then
      some (rest.foldl (fun v c => 64 * v + c.toNat % 64) high)
    else
      none

end MsgPack.Utf8
