import MsgPack.Schema.Restore

/-!
Reading through pointers of which several may lead to one object. What is read
through one of them is there for all. An option stands for a pointer that is the
only one to lead where it does.
-/

namespace MsgPack

open Cursor (Step)

/-- An address, or nothing. -/
abbrev Pointer := Option Nat

/-- Objects by their addresses, which are free from `next` on. -/
structure Cells (s : Schema) where
  object : Nat → s.Val
  next : Nat

/-- The options that pointers amount to. -/
abbrev Schema.pointees (s : Schema) (ps : List Pointer) : Row := .replicate (.option s) ps.length

namespace Cells

variable {s : Schema}

def put (cells : Cells s) (a : Nat) (x : s.Val) : Cells s where
  object b := if b = a then x else cells.object b
  next := max cells.next (a + 1)

/-- What the pointers lead to. -/
def load (cells : Cells s) : (ps : List Pointer) → (s.pointees ps).Val
  | [] => ()
  | p :: ps => (p.map cells.object, cells.load ps)

end Cells

namespace Schema

/-- Reads over the object that a pointer leads to. One that leads nowhere gets a
fresh object of its own; nil takes a pointer off its object and leaves that as it
is. -/
def restorePointer (s : Schema) (p : Pointer) (cells : Cells s) : Step (Pointer × Cells s) := do
  match ← Cursor.typeNext with
  | .null =>
    Cursor.leaf Get.nil
    return (none, cells)
  | _ =>
    let x ← s.restore ((p.map cells.object).getD s.fresh)
    let a := p.getD cells.next
    return (some a, cells.put a x)

/-- Reads through pointers in order. -/
def restorePointers (s : Schema) : List Pointer → Cells s → Step (List Pointer × Cells s)
  | [], cells => pure ([], cells)
  | p :: ps, cells => do
    let (p, cells) ← s.restorePointer p cells
    let (ps, cells) ← s.restorePointers ps cells
    return (p :: ps, cells)

/-- Reads a fixed number of elements through as many pointers. -/
def restoreShared (s : Schema) (ps : List Pointer) (cells : Cells s) :
    Step (List Pointer × Cells s) :=
  restoreTuple ps.length (s.restorePointers ps cells)

end Schema

end MsgPack
