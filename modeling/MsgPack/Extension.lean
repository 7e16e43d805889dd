import MsgPack.Error.Message

/-!
Extension values: a type code and bytes that only the application understands.
-/

namespace MsgPack

structure Extension where
  type : Int8
  data : Bytes
  deriving DecidableEq

/-- An extension of at most `capacity` bytes, which needs no storage of its
own. -/
structure FixedExtension (capacity : Nat) where
  ext : Extension
  fits : ext.data.length ≤ capacity
  deriving DecidableEq

namespace FixedExtension

def ofExtension (capacity : Nat) (e : Extension) : Except Error (FixedExtension capacity) :=
  if h : e.data.length ≤ capacity then .ok ⟨e, h⟩
  else .error (.invalidData (.extensionCapacity e.data.length capacity))

def empty (capacity : Nat) : FixedExtension capacity := ⟨⟨0, []⟩, Nat.zero_le _⟩

end FixedExtension

end MsgPack
