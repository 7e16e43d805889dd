import MsgPack.Cursor.Skip
import MsgPack.Writer.Event

/-!
Values under a cursor: reading one, and telling one to a writer as it is read.
-/

namespace MsgPack.Cursor

/-- The elements of the next array, all of them read in the same way. -/
def elements {α : Type} (elem : Step α) : Step (List α) := do
  let key ← beginScope .array
  let xs ← collect elem (← elemLeft)
  endScope .array key
  return xs

/-- The entries of the next map, in the order of the input. -/
def entries {α β : Type} (key : Step α) (val : Step β) : Step (List (α × β)) := do
  let scope ← beginScope .map
  let entry : Step (α × β) := do
    announceKey
    return (← key, ← val)
  let es ← collect entry ((← elemLeft) / 2)
  endScope .map scope
  return es

/-- One value, given how to read those inside a container. -/
def valueWith (storage : Storage) (inside : Step OwnedValue) : Step OwnedValue := do
  match ← typeNext with
  | .null =>
    leaf Get.nil
    return .nil
  | .boolean => return .bool (← leaf Get.bool)
  | .integer | .floatingPoint => return .number (← leaf Get.anyNumber)
  | .string => return .string (← text storage)
  | .binary => return .binary (← binary storage)
  | .extension =>
    let e ← extension storage
    return .extension e.type e.data
  | .array => return .array (← elements inside)
  | .map => return .map (← entries inside inside)

/-- One value with at most `levels` containers inside each other. With no level
left a container is refused when it is opened, before its content. -/
def valueWithin (storage : Storage) : (levels : Nat) → Step OwnedValue
  | 0 => valueWith storage tooDeep
  | levels + 1 => valueWith storage (valueWithin storage levels)

/-- The next value, with everything inside it. -/
def value (storage : Storage) : Step OwnedValue := do
  valueWithin storage (← levelsLeft)

/-! ### Telling what is read -/

section Transfer

variable {ω : Type} [Writer ω]

/-- A step of a cursor and a writer side by side. -/
abbrev Both (ω : Type) : Type → Type := EStateM Error (Cursor × ω)

def reading {α : Type} (step : Step α) : Both ω α := fun (c, w) =>
  match step c with
  | .ok a c => .ok a (c, w)
  | .error e c => .error e (c, w)

def telling (event : Event) : Both ω Unit := fun (c, w) =>
  match Writer.step event w with
  | .ok a w => .ok a (c, w)
  | .error e w => .error e (c, w)

/-- Moves one value from the cursor to the writer, given how to move those
inside a container. -/
def transferWith (inside : Both ω Unit) : Both ω Unit := do
  match ← reading typeNext with
  | .null =>
    reading (leaf Get.nil)
    telling .nil
  | .boolean => telling (.bool (← reading (leaf Get.bool)))
  | .integer | .floatingPoint => telling (Event.number (← reading (leaf Get.anyNumber)))
  | .string => telling (.text (← reading (text .owned)))
  | .binary => (Event.binary (← reading (binary .owned))).forM telling
  | .extension => telling (.extension (← reading (extension .owned)))
  | .array =>
    let key ← reading (beginScope .array)
    let n ← reading elemLeft
    telling (.beginArray (some n))
    times inside n
    telling .endArray
    reading (endScope .array key)
  | .map =>
    let key ← reading (beginScope .map)
    let n ← reading elemLeft
    telling (.beginMap (some (n / 2)))
    let entry : Both ω Unit := do
      reading announceKey
      telling .key
      inside
      inside
    times entry (n / 2)
    telling .endMap
    reading (endScope .map key)

def transferWithin : (levels : Nat) → Both ω Unit
  | 0 => transferWith (reading tooDeep)
  | levels + 1 => transferWith (transferWithin levels)

/-- Moves the next value from the cursor to the writer. -/
def transfer : Both ω Unit := do
  transferWithin (← reading levelsLeft)

end Transfer

end MsgPack.Cursor
