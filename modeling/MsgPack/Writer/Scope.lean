import MsgPack.Error.Message

/-!
The open containers of a writer. Each scope counts what is written into it
against the length it announced, and a map sees to it that keys and values
alternate.
-/

namespace MsgPack

inductive ScopeKind where
  | array
  | map
  | binary
  deriving DecidableEq, Repr

/-- An open container. Arrays count elements, maps entries, binaries bytes. -/
structure Scope where
  kind : ScopeKind
  declared : Nat
  written : Nat := 0
  keyAnnounced : Bool := false
  keyWritten : Bool := false
  deriving DecidableEq, Repr

/-- The open containers, the innermost first. -/
abbrev Scopes := List Scope

namespace Scopes

/-- A bookkeeping step. -/
abbrev Step : Type → Type := EStateM Error Scopes

def innermost (call : ScopedCall) : Step Scope := do
  match ← get with
  | [] => throw (.writerState (.noScope call))
  | scope :: _ => return scope

def setInnermost (scope : Scope) : Step Unit :=
  modify fun
    | [] => []
    | _ :: outer => scope :: outer

/-- Counts `n` more into the innermost scope, which has to have room for
them. -/
def count (scope : Scope) (n : Nat) : Step Unit :=
  let reached := scope.written + n
  if scope.declared < reached then
    throw (.writerState (.overfilled reached scope.declared))
  else
    setInnermost { scope with written := reached }

def announceKey : Step Unit := do
  let scope ← innermost .key
  if scope.kind ≠ .map then
    throw (.writerState .keyOutsideMap)
  else if scope.keyAnnounced || scope.keyWritten then
    throw (.writerState .keyPending)
  else if scope.written = scope.declared then
    throw (.writerState (.mapFull scope.declared))
  else
    setInnermost { scope with keyAnnounced := true }

/-- Accounts for one element: of an array, or the key or the value of an entry.
Outside all containers there is nothing to account for. -/
def nextElement : Step Unit := do
  match ← get with
  | [] => pure ()
  | scope :: _ =>
    match scope.kind with
    | .binary => throw (.writerState .elementInBinary)
    | .array => count scope 1
    | .map =>
      if scope.keyAnnounced then
        setInnermost { scope with keyAnnounced := false, keyWritten := true }
      else if scope.keyWritten then
        let scope := { scope with keyWritten := false }
        setInnermost scope
        count scope 1
      else
        throw (.writerState .valueWithoutKey)

def enter (kind : ScopeKind) (declared : Nat) : Step Unit :=
  modify ({ kind, declared } :: ·)

def appendBinary (n : Nat) : Step Unit := do
  let scope ← innermost .binaryChunk
  if scope.kind ≠ .binary then throw (.writerState .chunkOutsideBinary)
  else count scope n

/-- Closes the innermost scope, which has to be of the given kind and hold what
it announced. -/
def leave (kind : ScopeKind) : Step Unit := do
  let scope ← innermost .pop
  if scope.kind ≠ kind then
    throw (.writerState .otherScope)
  else if scope.written ≠ scope.declared || scope.keyAnnounced || scope.keyWritten then
    throw (.writerState (.incompleteScope scope.written scope.declared))
  else
    modify List.tail

end Scopes

end MsgPack
