import MsgPack.Utf8
import MsgPack.Value.Basic
import MsgPack.Writer.Event
import MsgPack.Writer.Scope

/-!
The writer that assembles one value.
-/

namespace MsgPack

namespace Builder

/-- A container under construction, its content in reverse. -/
inductive Frame where
  | array (elems : List OwnedValue)
  | map (entries : List (OwnedValue × OwnedValue)) (key : Option OwnedValue)

def Frame.value : Frame → OwnedValue
  | array elems => .array elems.reverse
  | map entries _ => .map entries.reverse

/-- Adds an element; in a map, keys and values in turn. -/
def Frame.add (v : OwnedValue) : Frame → Frame
  | array elems => array (v :: elems)
  | map entries none => map entries (some v)
  | map entries (some key) => map ((key, v) :: entries) none

end Builder

structure Builder where
  frames : List Builder.Frame := []
  result : Option OwnedValue := none
  binary : Bytes := []
  scopes : Scopes := []

namespace Builder

abbrev Step : Type → Type := EStateM Error Builder

def onScopes {α : Type} (step : Scopes.Step α) : Step α := fun b =>
  match step b.scopes with
  | .ok a scopes => .ok a { b with scopes }
  | .error e scopes => .error e { b with scopes }

/-- Whether a whole value is there. -/
def ready (b : Builder) : Bool := b.result.isSome && b.scopes.isEmpty

/-- Puts a finished value where it belongs. There is room for one root. -/
def place (v : OwnedValue) : Step Unit := do
  let b ← get
  match b.frames with
  | [] =>
    if b.result.isSome then throw (.writerState .rootComplete)
    else set { b with result := some v }
  | top :: outer => set { b with frames := top.add v :: outer }

def element (v : OwnedValue) : Step Unit := do
  onScopes Scopes.nextElement
  place v

def openScope (kind : ScopeKind) (what : LengthUnknown) (size : Option Nat) : Step Unit := do
  match size with
  | none => throw (.lengthUnknown what)
  | some n =>
    onScopes Scopes.nextElement
    onScopes (Scopes.enter kind n)

def push (frame : Frame) : Step Unit := modify fun b => { b with frames := frame :: b.frames }

/-- Closes the innermost container and places it. -/
def close (kind : ScopeKind) : Step Unit := do
  onScopes (Scopes.leave kind)
  let b ← get
  match b.frames with
  | [] => pure ()
  | top :: outer =>
    set { b with frames := outer }
    place top.value

def step : Event → Step Unit
  | .nil => element .nil
  | .bool b => element (.bool b)
  | .int _ i => element (.number (.ofInt i))
  | .float p x => element (.number (.ofFloat p x))
  | .char cp =>
    match Utf8.encode? cp with
    | some bs => element (.string bs)
    | none => throw (.invalidFormat (.codePoint cp))
  | .text bs => element (.string bs)
  | .extension e => element (.extension e.type e.data)
  | .beginBinary size => do
    openScope .binary (.content .binary) size
    modify fun b => { b with binary := [] }
  | .chunk bs => do
    onScopes (Scopes.appendBinary bs.length)
    modify fun b => { b with binary := b.binary ++ bs }
  | .endBinary => do
    onScopes (Scopes.leave .binary)
    let b ← get
    set { b with binary := [] }
    place (.binary b.binary)
  | .beginArray elems => do
    openScope .array (.elements .array) elems
    push (.array [])
  | .endArray => close .array
  | .beginMap entries => do
    openScope .map (.elements .map) entries
    push (.map [] none)
  | .endMap => close .map
  | .key => onScopes Scopes.announceKey

instance : Writer Builder := ⟨step⟩

def empty : Builder := {}

/-- Forgets the value and everything that is under construction. -/
def clear : Step Unit :=
  modify fun b => { b with frames := [], result := none, binary := [], scopes := [] }

/-- Takes out the value and starts afresh. -/
def release : Step OwnedValue := do
  let b ← get
  match b.result, b.ready with
  | some v, true =>
    set empty
    return v
  | _, _ => throw (.writerState (.incompleteValue b.scopes.length))

end Builder

end MsgPack
