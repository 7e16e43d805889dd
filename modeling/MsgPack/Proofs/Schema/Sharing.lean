import MsgPack.Proofs.Step
import MsgPack.Schema.Sharing

/-!
Pointers of which no two lead to one object are as good as options. Reading
through them is reading the options that they amount to, and afterwards they lead
to what these hold.
-/

namespace MsgPack

open Cursor (Step)

/-- The elements of a row of one schema. -/
def Row.items {s : Schema} : (n : Nat) → (Row.replicate s n).Val → List s.Val
  | 0, _ => []
  | n + 1, (x, xs) => x :: items n xs

theorem Row.length_replicate (s : Schema) (n : Nat) : (replicate s n).length = n := by
  induction n with
  | zero => rfl
  | succ n ih => exact congrArg (· + 1) ih

namespace Cells

variable {s : Schema} {cells : Cells s} {p : Pointer} {ps : List Pointer} {a : Nat} {x : s.Val}

/-- Whether no two of the pointers lead to one object, and where they lead there
is one. -/
structure Unshared (cells : Cells s) (ps : List Pointer) : Prop where
  apart : ps.Pairwise fun p q => ∀ a, p = some a → q ≠ some a
  used : ∀ p ∈ ps, ∀ a, p = some a → a < cells.next

/-- A pointer and the objects once an option was read for it. -/
def put? (cells : Cells s) (p : Pointer) : Option s.Val → Pointer × Cells s
  | none => (none, cells)
  | some x => (some (p.getD cells.next), cells.put (p.getD cells.next) x)

/-- Pointers and objects once a row of options was read for them. -/
def putAll (cells : Cells s) :
    (ps : List Pointer) → (s.pointees ps).Val → List Pointer × Cells s
  | [], _ => ([], cells)
  | p :: ps, (x, xs) =>
    let rest := (cells.put? p x).2.putAll ps xs
    ((cells.put? p x).1 :: rest.1, rest.2)

/-- What the pointers lead to. -/
def contents (cells : Cells s) (ps : List Pointer) : List (Option s.Val) :=
  ps.map (Option.map cells.object)

@[simp] theorem object_put (cells : Cells s) (a : Nat) (x : s.Val) (b : Nat) :
    (cells.put a x).object b = if b = a then x else cells.object b := rfl

theorem next_le_put (cells : Cells s) (a : Nat) (x : s.Val) : cells.next ≤ (cells.put a x).next :=
  Nat.le_max_left _ _

theorem lt_next_put (cells : Cells s) (a : Nat) (x : s.Val) : a < (cells.put a x).next :=
  Nat.le_max_right _ _

theorem load_congr {other : Cells s} (h : ∀ a, some a ∈ ps → other.object a = cells.object a) :
    other.load ps = cells.load ps := by
  induction ps with
  | nil => rfl
  | cons p ps ih =>
      have hfirst : p.map other.object = p.map cells.object :=
        Option.map_congr fun a ha => h a (ha ▸ List.mem_cons_self)
      exact Prod.ext hfirst (ih fun a ha => h a (List.mem_cons_of_mem _ ha))

/-- Reading through a pointer changes an object that is there only if the pointer
leads to it. -/
theorem target_ne (hp : some a ≠ p) (ha : a < cells.next) : a ≠ p.getD cells.next := by
  rintro rfl
  cases p with
  | none => exact Nat.lt_irrefl _ ha
  | some b => exact hp rfl

namespace Unshared

theorem ne_of_mem (h : cells.Unshared (p :: ps)) (ha : some a ∈ ps) : a ≠ p.getD cells.next :=
  target_ne (fun hp => (List.pairwise_cons.mp h.apart).1 _ ha a hp.symm rfl)
    (h.used _ (List.mem_cons_of_mem _ ha) a rfl)

theorem put (h : cells.Unshared (p :: ps)) (x : Option s.Val) :
    (cells.put? p x).2.Unshared ps where
  apart := (List.pairwise_cons.mp h.apart).2
  used q hq b hb := by
    have hused : b < cells.next := h.used q (List.mem_cons_of_mem _ hq) b hb
    cases x with
    | none => exact hused
    | some x => exact Nat.lt_of_lt_of_le hused (next_le_put ..)

theorem load_put (h : cells.Unshared (p :: ps)) (x : Option s.Val) :
    (cells.put? p x).2.load ps = cells.load ps := by
  cases x with
  | none => rfl
  | some x => exact load_congr fun a ha => if_neg (h.ne_of_mem ha)

end Unshared

/-- Objects that no pointer leads to stay as they are. -/
theorem object_putAll (cells : Cells s) (ps : List Pointer)
    (xs : (s.pointees ps).Val) (hps : some a ∉ ps) (ha : a < cells.next) :
    (cells.putAll ps xs).2.object a = cells.object a := by
  induction ps generalizing cells with
  | nil => rfl
  | cons p ps ih =>
      obtain ⟨x, xs⟩ := xs
      rw [List.mem_cons, not_or] at hps
      obtain ⟨hp, hps⟩ := hps
      cases x with
      | none => exact ih cells xs hps ha
      | some x =>
          have hrest := ih (cells.put (p.getD cells.next) x) xs hps
            (Nat.lt_of_lt_of_le ha (next_le_put ..))
          exact hrest.trans (if_neg (target_ne hp ha))

/-- Pointers that are not shared lead to what was read for them. -/
theorem Unshared.contents_putAll (h : cells.Unshared ps)
    (xs : (s.pointees ps).Val) :
    (cells.putAll ps xs).2.contents (cells.putAll ps xs).1 = Row.items ps.length xs := by
  induction ps generalizing cells with
  | nil => rfl
  | cons p ps ih =>
      obtain ⟨x, xs⟩ := xs
      have hrest := ih (h.put x) xs
      refine List.cons_eq_cons.mpr ⟨?_, hrest⟩
      cases x with
      | none => rfl
      | some x =>
          -- those behind lead elsewhere, and so leave the object to the first
          have hkept := object_putAll (cells.put (p.getD cells.next) x) ps xs
            (fun ha => h.ne_of_mem ha rfl) (lt_next_put ..)
          exact congrArg some (hkept.trans (if_pos rfl))

end Cells

namespace Schema

variable {s : Schema} {cells : Cells s} {ps : List Pointer}

theorem restorePointer_eq (p : Pointer) (cells : Cells s) :
    s.restorePointer p cells = (do
      let x ← (option s).restore (p.map cells.object)
      return cells.put? p x) := by
  rw [restorePointer, restore, bind_assoc]
  refine bind_congr fun e => ?_
  cases e with
  | null => exact (return_return (Cursor.leaf Get.nil) (fun _ => none) (cells.put? p)).symm
  | _ => exact (return_return (s.restore _) some (cells.put? p)).symm

theorem restorePointers_eq (h : cells.Unshared ps) :
    s.restorePointers ps cells = (do
      let xs ← (s.pointees ps).restore (cells.load ps)
      return cells.putAll ps xs) := by
  induction ps generalizing cells with
  | nil => rfl
  | cons p ps ih =>
      let items := (s.pointees ps).restore (cells.load ps)
      show _ = ((do
        let x ← (option s).restore (p.map cells.object)
        return (x, ← items) : Step ((option s).Val × _)) >>= fun xs =>
          pure (cells.putAll (p :: ps) xs))
      rw [restorePointers, restorePointer_eq]
      simp only [bind_assoc, pure_bind]
      refine bind_congr fun x => ?_
      rw [ih (h.put x), h.load_put x]
      simp only [bind_assoc, pure_bind]
      rfl

theorem restoreTuple_map {α β : Type} (n : Nat) (elems : Step α) (f : α → β) :
    restoreTuple n (do return f (← elems)) = (do return f (← restoreTuple n elems)) := by
  simp only [restoreTuple, bind_assoc, pure_bind]

/-- Reading through pointers that are not shared is reading options. -/
theorem restoreShared_of_unshared (h : cells.Unshared ps) :
    s.restoreShared ps cells = (do
      let xs ← (tuple (s.pointees ps)).restore (cells.load ps)
      return cells.putAll ps xs) := by
  rw [restoreShared, restorePointers_eq h, restoreTuple_map]
  show _ = (restoreTuple (s.pointees ps).length _ >>= _)
  rw [Row.length_replicate]
  rfl

end Schema

end MsgPack
