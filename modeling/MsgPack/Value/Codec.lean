import MsgPack.Value.Basic
import MsgPack.Wire.Policy

/-!
Values on the wire. Reading follows the markers, down to a given nesting of
containers.
-/

namespace MsgPack

/-- Who keeps the byte content of what is read. -/
inductive Storage where
  | owned
  | borrowed
  deriving DecidableEq, Repr

/-- Content that can be taken from what a source yields. Views need a source
that lends. -/
class Takes (β : Type) extends ByteContent β where
  take : Payload → Get β

instance : Takes Bytes := ⟨fun p => pure p.bytes⟩

instance : Takes ByteView := ⟨Get.borrow⟩

/-- The bytes of a payload, taken in the given manner. -/
def Storage.take : Storage → Payload → Get Bytes
  | owned, p => Takes.take p
  | borrowed, p => return (← (Takes.take p : Get ByteView)).toBytes

namespace Value

/-- How deep containers may nest where nothing else is said. -/
def defaultDepth : Nat := 256

section Get

variable {β : Type} [Takes β]

/-- One value, given how to read those inside a container, or that there may be
no further container. -/
def getWith (inside : Option (Get (Value β))) : Get (Value β) := do
  let m ← Get.marker
  match m.code.entity? with
  | some .null => Get.after (pure nil)
  | some .boolean => return bool (← Get.bool)
  | some .integer | some .floatingPoint => return number (← Get.anyNumber)
  | some .string => return string (← Takes.take (← Get.text))
  | some .binary => return binary (← Takes.take (← Get.binary))
  | some .extension =>
    let (type, p) ← Get.extension
    return extension type (← Takes.take p)
  | some .array =>
    match inside with
    | none => throw (.recursionLimit .value)
    | some get =>
      let n ← Get.arrayHeader
      return array (← collect get n)
  | some .map =>
    match inside with
    | none => throw (.recursionLimit .value)
    | some get =>
      let n ← Get.mapHeader
      return map (← collect (do return (← get, ← get)) n)
  | none => Get.refuse .value m

/-- One value with containers nested at most `depth` deep. -/
def get : (depth : Nat) → Get (Value β)
  | 0 => getWith none
  | depth + 1 => getWith (some (get depth))

end Get

section Put

variable {β : Type} [ByteContent β]

mutual

def put (policy : EncodePolicy) : Value β → Put Nat
  | nil => Put.nil
  | bool b => Put.bool b
  | binary c => Put.binary (ByteContent.bytes c)
  | extension t c => Put.extension ⟨t, ByteContent.bytes c⟩
  | number n => policy.number n
  | string c => Put.text (ByteContent.bytes c)
  | array elems => do putElems policy elems (← Put.arrayHeader elems.length)
  | map entries => do putEntries policy entries (← Put.mapHeader entries.length)

/-- The elements, `written` bytes being written before them. -/
def putElems (policy : EncodePolicy) : List (Value β) → (written : Nat) → Put Nat
  | [], written => pure written
  | v :: vs, written => do putElems policy vs (written + (← put policy v))

def putEntries (policy : EncodePolicy) :
    List (Value β × Value β) → (written : Nat) → Put Nat
  | [], written => pure written
  | (k, v) :: es, written => do
    let key ← put policy k
    let child ← put policy v
    putEntries policy es (written + key + child)

end

end Put

end Value

end MsgPack
