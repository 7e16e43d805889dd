import MsgPack.Value.Codec

/-!
A cursor moves through an input along the tree that the input encodes. It keeps
the stack of the containers that are open, each with the number of elements
still to be read, and refuses reads that the innermost one does not allow.
-/

namespace MsgPack

/-- An open container. In a map keys and values count one by one, and a key has
to be announced. -/
structure Frame where
  id : Nat
  kind : Container
  remaining : Nat
  keyPending : Bool := false
  deriving DecidableEq, Repr

namespace Frame

/-- Whether the next element is a key. -/
def atKey (f : Frame) : Bool := f.kind == .map && f.remaining % 2 == 0

end Frame

/-- The state of a reader. Scopes are known by their numbers, which are counted
up from 1. -/
structure Cursor where
  policy : DecodePolicy := .widening
  /-- The greatest number of scopes that may be open. -/
  maxDepth : Nat := Value.defaultDepth
  /-- Whether a scope may only be closed when it has been read to its end. -/
  strict : Bool := false
  source : Source
  /-- The innermost scope first. -/
  frames : List Frame := []
  lastId : Nat := 0

/-- What a variant begins with. -/
inductive VariantShape where
  | name
  | entry (scope : Int)
  | pair (scope : Int)
  deriving DecidableEq, Repr

namespace VariantShape

/-- A name that stands alone carries nothing. -/
def hasPayload : VariantShape → Bool
  | name => false
  | entry _ | pair _ => true

end VariantShape

namespace Cursor

abbrev Step : Type → Type := EStateM Error Cursor

def ofBytes (policy : DecodePolicy) (kind : SourceKind) (input : Bytes) : Cursor :=
  { policy, source := .ofBytes kind input }

def depth (c : Cursor) : Nat := c.frames.length

/-- Forgets every open scope. -/
def clear (c : Cursor) : Cursor := { c with frames := [], lastId := 0 }

def fromSource {α : Type} (get : Get α) : Step α := fun c =>
  match get c.source with
  | .ok a source => .ok a { c with source }
  | .error e source => .error e { c with source }

def refuse {α : Type} (misuse : ReaderMisuse) : Step α := throw (.readerContext misuse)

def innermost : Step Frame := do
  match (← get).frames with
  | [] => refuse .noScope
  | f :: _ => return f

/-- Changes the innermost scope, if there is one. -/
def modifyInnermost (change : Frame → Frame) : Step Unit :=
  modify fun c =>
    match c.frames with
    | [] => c
    | f :: outer => { c with frames := change f :: outer }

/-- Refuses to read beyond the end of the innermost scope, and keys that were
not announced. -/
def checkReadable : Step Unit := do
  match (← get).frames with
  | [] => pure ()
  | f :: _ =>
    if f.remaining = 0 then refuse .exhausted
    else if f.atKey && !f.keyPending then refuse .keyNotAnnounced
    else pure ()

/-- Accounts for an element that has been read. A key uses up its
announcement. -/
def stepOver : Step Unit :=
  modifyInnermost fun f =>
    { f with keyPending := !f.atKey && f.keyPending, remaining := f.remaining - 1 }

/-- Accounts for an element that has been skipped, announced or not. -/
def stepOverSkipped : Step Unit :=
  modifyInnermost fun f => { f with keyPending := false, remaining := f.remaining - 1 }

/-- One element that is not a container. The scope is stepped when the element
has been read. -/
def leaf {α : Type} (get : Get α) : Step α := do
  checkReadable
  let a ← fromSource get
  stepOver
  return a

/-- The complaint about one scope too many. -/
def tooDeep {α : Type} : Step α := do
  throw (.recursionLimit (.openScopes (← get).maxDepth))

/-- The number of scopes that can still be opened. It bounds the nesting of
everything that is read from here on. -/
def levelsLeft : Step Nat := return (← get).maxDepth - (← get).frames.length

/-- Opens a scope of `elems` elements, unless there are too many already. -/
def pushFrame (kind : Container) (elems : Nat) : Step Nat := do
  let c ← get
  if c.maxDepth ≤ c.frames.length then
    tooDeep
  else
    let id := c.lastId + 1
    let frame : Frame := { id, kind, remaining := elems }
    set { c with frames := frame :: c.frames, lastId := id }
    return id

/-- Opens the next container and answers with the number of its scope. -/
def beginScope (kind : Container) : Step Nat := do
  checkReadable
  match kind with
  | .array =>
    let n ← fromSource Get.arrayHeader
    stepOver
    pushFrame .array n
  | .map =>
    let n ← fromSource Get.mapHeader
    stepOver
    pushFrame .map (2 * n)

/-- The elements of the innermost scope that are still to be read. -/
def elemLeft : Step Nat := return (← innermost).remaining

/-- Whether the scope of the given number is the innermost one and read to its
end. -/
def shouldBreak (key : Int) : Step Bool := do
  let f ← innermost
  return key == f.id && f.remaining == 0

/-- Announces a key. -/
def announceKey : Step Unit := do
  let f ← innermost
  if f.kind ≠ .map then refuse (.scopeKind f.kind .map)
  else if f.remaining % 2 = 1 then refuse .keyOutOfOrder
  else if f.keyPending then refuse .keyPending
  else modifyInnermost fun f => { f with keyPending := true }

/-- What the next value is, whether or not it may be read. -/
def typeNext : Step EntityType := fromSource do
  let m ← Get.marker
  match m.code.entity? with
  | some entity => return entity
  | none => Get.refuse .anyValue m

def text (storage : Storage) : Step Bytes := leaf do storage.take (← Get.text)

def binary (storage : Storage) : Step Bytes := leaf do storage.take (← Get.binary)

def extension (storage : Storage) : Step Extension := leaf do
  let (type, p) ← Get.extension
  return ⟨type, ← storage.take p⟩

end Cursor

end MsgPack
