import MsgPack.Cursor.Value
import MsgPack.Schema.Codec

/-!
Reading objects under a cursor into objects that are there already. Scalars,
lists and maps replace what was there. Tuples and structs keep their parts and
read into them, so that a field which the input does not mention stays as it
was.
-/

namespace MsgPack

open Cursor (Step)

/-- Reads the fields of a struct from the entries of a map, `n` entries being
left. A field may come at any place and more than once; other entries are
passed over. -/
def restoreFields {α : Type} (field? : α → Bytes → Option (Step α)) : Nat → α → Step α
  | 0, x => pure x
  | n + 1, x => do
    Cursor.announceKey
    let name ← Cursor.text .owned
    match field? x name with
    | some field => restoreFields field? n (← field)
    | none => do
      Cursor.skip
      restoreFields field? n x

/-- The next container, which has to have `n` elements, read by one step. -/
def restoreTuple {α : Type} (n : Nat) (elems : Step α) : Step α := do
  let key ← Cursor.beginScope .array
  checkArity n (← Cursor.elemLeft)
  let x ← elems
  Cursor.endScope .array key
  return x

/-- The next struct: a map of names to values, or the values in order. -/
def restoreStruct {α : Type} (n : Nat) (elems : Step α)
    (field? : α → Bytes → Option (Step α)) (x : α) : Step α := do
  match ← Cursor.typeNext with
  | .map =>
    let key ← Cursor.beginScope .map
    let x ← restoreFields field? ((← Cursor.elemLeft) / 2) x
    Cursor.endScope .map key
    return x
  | .array => restoreTuple n elems
  | _ => throw (.unexpectedFormat .noStruct)

/-- The next union, given how to read the alternative of a name. -/
def restoreVariant {α : Type} (alternative? : Bytes → Bool → Option (Step α)) : Step α := do
  let (name, shape) ← Cursor.beginVariant
  match alternative? name shape.hasPayload with
  | some step =>
    let x ← step
    Cursor.endVariant shape
    return x
  | none => throw (.invalidData (.unknownVariant name))

/-- The character that a text consists of. -/
def restoreChar : Step UInt32 := do
  let bs ← Cursor.text .owned
  match Utf8.single? bs with
  | some cp => return UInt32.ofNat cp
  | none => throw (.invalidData (.notOneCharacter bs.length))

/-- An integer that is carried in the widest type of its signedness. -/
def restoreCarried (t : IntType) : Step t.Value := do
  let wide ← Cursor.leaf ((← get).policy.int t.widest)
  match t.ofInt? wide.val with
  | some i => return i
  | none => throw (.invalidData (.outOfRange (.ofInt wide)))

mutual

/-- Reads an object over another one. -/
def Schema.restore : (s : Schema) → s.Val → Step s.Val
  | .nil, _ => Cursor.leaf Get.nil
  | .bool, _ => Cursor.leaf Get.bool
  | .int t _, _ => do Cursor.leaf ((← get).policy.int t)
  | .carried t, _ => restoreCarried t
  | .float p, _ => do Cursor.leaf ((← get).policy.float p)
  | .number, _ => Cursor.leaf Get.anyNumber
  | .char, _ => restoreChar
  | .text storage _, _ => Cursor.text storage
  | .binary storage, _ => Cursor.binary storage
  | .extension storage, _ => Cursor.extension storage
  | .fixedExtension capacity, _ => do
    Get.ofExcept (FixedExtension.ofExtension capacity (← Cursor.extension .owned))
  | .timestamp l, _ => do Get.ofExcept (Timestamp.ofExtension l (← Cursor.extension .owned))
  | .instant u, _ => do
    Get.ofExcept (Timestamp.instantOfExtension u (← Cursor.extension .owned))
  | .value storage, _ => Cursor.value storage
  | .list s, _ => Cursor.elements (s.restore s.fresh)
  | .map k v, _ => do
    let es ← Cursor.entries (k.restore k.fresh) (v.restore v.fresh)
    return mapOfEntries k.compare es
  | .option s, (x : Option s.Val) => do
    match ← Cursor.typeNext with
    | .null =>
      Cursor.leaf Get.nil
      return none
    | _ => return some (← s.restore (x.getD s.fresh))
  | .tuple r, x => restoreTuple r.length (r.restore x)
  | .struct r, x => restoreStruct r.length (r.restore x) r.restoreField? x
  | .variant a, _ => restoreVariant a.restore?

/-- Reads the items in order. -/
def Row.restore : (r : Row) → r.Val → Step r.Val
  | .nil, _ => pure ()
  | .cons _ s rest, (x, xs) => do
    let x ← s.restore x
    let xs ← rest.restore xs
    return (x, xs)

/-- How to read the first item of the given name, if there is one. -/
def Row.restoreField? : (r : Row) → r.Val → (name : Bytes) → Option (Step r.Val)
  | .nil, _, _ => none
  | .cons own s rest, (x, xs), name =>
    if own = name then
      some do return (← s.restore x, xs)
    else
      (rest.restoreField? xs name).map fun step => do return (x, ← step)

/-- How to read the first alternative of the given name, if there is one. -/
def Alternatives.restore? : (a : Alternatives) → (name : Bytes) → (hasPayload : Bool) →
    Option (Step a.Val)
  | .last own c, name, hasPayload =>
    if own = name then some (c.restore name hasPayload) else none
  | .cons own c rest, name, hasPayload =>
    if own = name then
      some do return .inl (← c.restore name hasPayload)
    else
      (rest.restore? name hasPayload).map fun step => do return .inr (← step)

def Content.restore : (c : Content) → (name : Bytes) → (hasPayload : Bool) → Step c.Val
  | .unit, name, hasPayload =>
    if hasPayload then throw (.invalidData (.unitPayload name)) else pure ()
  | .item s, name, hasPayload =>
    if hasPayload then s.restore s.fresh else throw (.invalidData (.noPayload name))

end

end MsgPack
