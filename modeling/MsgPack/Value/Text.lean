import MsgPack.Decimal.Shortest
import MsgPack.Hex
import MsgPack.Value.Basic

/-!
Values for people to read. Strings are shown as they are between quotes, bytes
in hexadecimal, containers with their usual brackets. Floats are shown in plain
notation; a value that holds one outside its range has no text.
-/

namespace MsgPack.Value

open Bytes (ofString)

/-- Bytes in hexadecimal, a space before each, up to the closing bracket. -/
def hexText (bs : Bytes) : Bytes :=
  bs.flatMap (fun b => ofString (String.ofList (' ' :: Hex.byte b))) ++ ofString ">"

def numberText? : Number → Option Bytes
  | .int i => some (ofString (toString i.val))
  | .float x => (Decimal.plain? x).map ofString

/-- Items between brackets, with commas. -/
def bracketed (left right : String) (items : List Bytes) : Bytes :=
  ofString left ++ (ofString ", ").intercalate items ++ ofString right

variable {β : Type} [ByteContent β]

mutual

def text? : Value β → Option Bytes
  | nil => some (ofString "null")
  | bool b => some (ofString (if b then "true" else "false"))
  | binary c => some (ofString "<bin" ++ hexText (ByteContent.bytes c))
  | extension t c => some (ofString s!"<ext {t.toInt}:" ++ hexText (ByteContent.bytes c))
  | number n => numberText? n
  | string c => some (ofString "\"" ++ ByteContent.bytes c ++ ofString "\"")
  | array elems => (texts? elems).map (bracketed "[" "]")
  | map entries => (entryTexts? entries).map (bracketed "\x7b" "\x7d")

def texts? : List (Value β) → Option (List Bytes)
  | [] => some []
  | v :: vs => do return (← text? v) :: (← texts? vs)

def entryTexts? : List (Value β × Value β) → Option (List Bytes)
  | [] => some []
  | (k, v) :: es => do
    let key ← text? k
    let child ← text? v
    return (key ++ ofString ": " ++ child) :: (← entryTexts? es)

end

end MsgPack.Value
