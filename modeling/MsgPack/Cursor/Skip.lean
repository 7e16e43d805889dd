import MsgPack.Cursor.Basic

/-!
Passing over elements without looking at them, and closing scopes, which passes
over what was not read.
-/

namespace MsgPack

/-- Repeats a step `n` times. -/
def times {σ : Type} (step : EStateM Error σ Unit) : Nat → EStateM Error σ Unit
  | 0 => pure ()
  | n + 1 => do
    step
    times step n

namespace Get

/-- Passes over a value that is not a container. Where the marker determines the
size, marker and content are read in one piece. -/
def skipLeaf : Get Unit := do
  let m ← marker
  match m.code with
  | .str8 | .str16 | .str32 => discard (read (← textHeader))
  | .bin8 | .bin16 | .bin32 => discard (read (← binaryHeader))
  | .fixstr => discard (read (1 + m.payload.toNat))
  | code =>
    match code.entity? with
    | some .extension => discard extension
    | _ =>
      match code.intType?, code.precision? with
      | some t, _ => discard (read (1 + t.bytes))
      | none, some p => discard (read (1 + p.bytes))
      | none, none => discard byte

end Get

namespace Cursor

/-- Announces the next element of the innermost scope if it is a key. -/
def announceSkipped : Step Unit :=
  modifyInnermost fun f => { f with keyPending := f.atKey || f.keyPending }

/-- Passes over what is left of the innermost scope and closes it, given how to
pass over one element. -/
def drainWith (one : Step Unit) : Step Unit := do
  let f ← innermost
  times (do announceSkipped; one) f.remaining
  modify fun c => { c with frames := c.frames.tail }

/-- Passes over one element, given how to pass over those inside a
container. -/
def skipWith (one : Step Unit) : Step Unit := do
  let m ← fromSource Get.marker
  match m.code.entity? with
  | some .array =>
    discard (beginScope .array)
    drainWith one
  | some .map =>
    discard (beginScope .map)
    drainWith one
  | some _ =>
    fromSource Get.skipLeaf
    stepOverSkipped
  | none => fromSource (Get.refuse .anyValue m)

/-- Passes over one element with at most `levels` containers inside each
other. With no level left a container is refused when it is opened, so what
stands for passing over its content is never reached. -/
def skipWithin : (levels : Nat) → Step Unit
  | 0 => skipWith tooDeep
  | levels + 1 => skipWith (skipWithin levels)

/-- Passes over the next element, with everything inside it. -/
def skip : Step Unit := do
  checkReadable
  skipWithin (← levelsLeft)

/-- Closes the innermost scope. What is left of it is passed over, or complained
about in strict mode. -/
def closeInnermost (strict : Bool) : Step Unit := do
  let f ← innermost
  if strict && f.remaining ≠ 0 then
    throw (.invalidData (.unread f.remaining))
  else
    drainWith (skipWithin (← levelsLeft))

/-- How many scopes have to be closed to close the scope of the given number. -/
def scopesUpTo (kind : Container) (key : Int) : Step Nat := do
  let frames := (← get).frames
  match frames.findIdx? (·.id == key) with
  | none => refuse .notOpen
  | some i =>
    match frames[i]? with
    | some f => if f.kind = kind then return i + 1 else refuse .closedAsOther
    | none => refuse .notOpen

/-- Closes the scope of the given number, and every scope inside it. -/
def endScope (kind : Container) (key : Int) : Step Unit := do
  let n ← scopesUpTo kind key
  times (closeInnermost (← get).strict) n

/-- Opens a tagged union: a name alone, a map with one entry, or an array of a
name and a payload. The payload comes next, if there is one. -/
def beginVariant : Step (Bytes × VariantShape) := do
  match ← typeNext with
  | .string => return (← text .owned, .name)
  | .map =>
    let key ← beginScope .map
    let n ← elemLeft
    if n ≠ 2 then throw (.invalidData (.variantEntries (n / 2)))
    announceKey
    return (← text .owned, .entry key)
  | .array =>
    let key ← beginScope .array
    let n ← elemLeft
    if n ≠ 2 then throw (.invalidData (.variantElements n))
    return (← text .owned, .pair key)
  | _ => throw (.unexpectedFormat .noVariant)

def endVariant : VariantShape → Step Unit
  | .name => pure ()
  | .entry key => endScope .map key
  | .pair key => endScope .array key

end Cursor

end MsgPack
