/-!
Byte strings, and the two ways the format looks at them: as numerals written
with the most significant byte first, and as views, windows into a longer
string that share it instead of copying it. What cannot be shared is copied
into buffers, which are byte strings that are resized and written over.
-/

-- Powers are those of the numbers themselves, also where a monoid of theirs is known.
attribute [instance (high), default_instance (high)] instPowNat

namespace MsgPack

abbrev Bytes := List UInt8

namespace Bytes

/-- The `k` low bytes of `n`, most significant first. -/
def ofNat : (k : Nat) → (n : Nat) → Bytes
  | 0, _ => []
  | k + 1, n => UInt8.ofNat (n / 256 ^ k) :: ofNat k n

/-- The number that `bs` spells, most significant byte first. -/
def toNat (bs : Bytes) : Nat :=
  bs.foldl (fun n b => 256 * n + b.toNat) 0

/-- A text in UTF-8. -/
def ofString (s : String) : Bytes := s.toUTF8.data.toList

/-- The text that `bs` spells in UTF-8, if it spells one. -/
def toString? (bs : Bytes) : Option String := String.fromUTF8? ⟨bs.toArray⟩

/-- Cut, or filled up with zeros, to `size` bytes. -/
def resize (bs : Bytes) (size : Nat) : Bytes :=
  bs.take size ++ List.replicate (size - bs.length) 0

/-- With `xs` in the place of what stood from `offset` on. -/
def overwrite (bs : Bytes) (offset : Nat) (xs : Bytes) : Bytes :=
  bs.take offset ++ (xs ++ bs.drop (offset + xs.length))

@[simp] theorem length_ofNat (k n : Nat) : (ofNat k n).length = k := by
  induction k with
  | zero => rfl
  | succ k ih => simp [ofNat, ih]

@[simp] theorem length_resize (bs : Bytes) (size : Nat) : (bs.resize size).length = size := by
  simp [resize]
  omega

end Bytes

/-- The first `size` bytes of `tail`. A view made from the unread part of an
input keeps that input alive and copies nothing. -/
structure ByteView where
  tail : Bytes
  size : Nat
  fits : size ≤ tail.length

/-- What a look-up beyond the end of a view reports. -/
structure IndexOutOfRange where
  index : Nat

namespace IndexOutOfRange

def message (_ : IndexOutOfRange) : String := "bad index"

end IndexOutOfRange

namespace ByteView

def ofBytes (bs : Bytes) : ByteView := ⟨bs, bs.length, Nat.le_refl _⟩

def toBytes (v : ByteView) : Bytes := v.tail.take v.size

def isEmpty (v : ByteView) : Bool := v.size == 0

/-- The part of `v` from `offset` on, at most `limit` bytes of it. An offset
beyond the end gives the empty view at the end. -/
def slice (v : ByteView) (offset : Nat) (limit : Option Nat) : ByteView :=
  if h : offset < v.size then
    let left := v.size - offset
    ⟨v.tail.drop offset, (limit.getD left).min left, by
      have := v.fits
      have : (limit.getD left).min left ≤ left := Nat.min_le_right ..
      rw [List.length_drop]
      omega⟩
  else
    ⟨v.tail.drop v.size, 0, Nat.zero_le _⟩

/-- The byte at position `i`. -/
def at? (v : ByteView) (i : Nat) : Except IndexOutOfRange UInt8 :=
  if h : i < v.size then .ok (v.tail.get ⟨i, Nat.lt_of_lt_of_le h v.fits⟩)
  else .error ⟨i⟩

/-- Views are compared by what they show, wherever they show it. -/
instance : BEq ByteView := ⟨fun v w => v.toBytes == w.toBytes⟩

@[simp] theorem toBytes_ofBytes (bs : Bytes) : (ofBytes bs).toBytes = bs :=
  List.take_length

@[simp] theorem length_toBytes (v : ByteView) : v.toBytes.length = v.size := by
  have := v.fits
  simp [toBytes]
  omega

end ByteView

end MsgPack
