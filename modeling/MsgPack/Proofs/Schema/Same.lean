import Mathlib.Data.List.Forall2
import Mathlib.Data.List.Induction
import MsgPack.Proofs.FloatBits.Exact
import MsgPack.Schema.Order

/-!
How like an object is to itself after a journey. Everything stays as it is but
singles, which readers see as doubles: of a NaN only that it is one survives.
Keys are ordered as before, so that a map comes back in its order.
-/

namespace MsgPack

mutual

/-- Objects that differ at most in what sort of NaN they hold. -/
def Schema.Same : (s : Schema) → s.Val → s.Val → Prop
  | .float _, (x : FloatBits _), (y : FloatBits _) => x = y ∨ x.isNaN ∧ y.isNaN
  | .list s, (xs : List s.Val), (ys : List s.Val) => List.Forall₂ s.Same xs ys
  | .map k v, (es : List (k.Val × v.Val)), (fs : List (k.Val × v.Val)) =>
    List.Forall₂ (fun e f => k.Same e.1 f.1 ∧ v.Same e.2 f.2) es fs
  | .option s, (x : Option s.Val), (y : Option s.Val) => Option.Rel s.Same x y
  | .tuple r, x, y => r.Same x y
  | .struct r, x, y => r.Same x y
  | .variant a, x, y => a.Same x y
  | _, x, y => x = y

def Row.Same : (r : Row) → r.Val → r.Val → Prop
  | .nil, _, _ => True
  | .cons _ s rest, (x, xs), (y, ys) => s.Same x y ∧ rest.Same xs ys

def Alternatives.Same : (a : Alternatives) → a.Val → a.Val → Prop
  | .last _ c, x, y => c.Same x y
  | .cons _ c _, .inl x, .inl y => c.Same x y
  | .cons _ _ rest, .inr x, .inr y => rest.Same x y
  | .cons .., _, _ => False

def Content.Same : (c : Content) → c.Val → c.Val → Prop
  | .unit, _, _ => True
  | .item s, x, y => s.Same x y

end

mutual

/-- What is read where an object was written. -/
def Schema.reread : (s : Schema) → s.Val → s.Val
  | .float .single, x => (Single.widen x).narrow
  | .list s, (xs : List s.Val) => xs.map s.reread
  | .map k v, (es : List (k.Val × v.Val)) => es.map fun e => (k.reread e.1, v.reread e.2)
  | .option s, (x : Option s.Val) => x.map s.reread
  | .tuple r, x => r.reread x
  | .struct r, x => r.reread x
  | .variant a, x => a.reread x
  | _, x => x

def Row.reread : (r : Row) → r.Val → r.Val
  | .nil, _ => ()
  | .cons _ s rest, (x, xs) => (s.reread x, rest.reread xs)

def Alternatives.reread : (a : Alternatives) → a.Val → a.Val
  | .last _ c, x => c.reread x
  | .cons _ c _, .inl x => .inl (c.reread x)
  | .cons _ _ rest, .inr x => .inr (rest.reread x)

def Content.reread : (c : Content) → c.Val → c.Val
  | .unit, _ => ()
  | .item s, x => s.reread x

end

theorem forall₂_map_left {α : Type} {R : α → α → Prop} {f : α → α} {xs : List α}
    (h : ∀ x, R (f x) x) : List.Forall₂ R (xs.map f) xs :=
  List.forall₂_map_left_iff.mpr (List.forall₂_same.mpr fun x _ => h x)

mutual

theorem Schema.same_reread : (s : Schema) → (x : s.Val) → s.Same (s.reread x) x
  | .float .single, x => Single.same_narrow_widen x
  | .float .double, _ => .inl rfl
  | .list s, (_ : List s.Val) => forall₂_map_left fun x => s.same_reread x
  | .map k v, (_ : List (k.Val × v.Val)) =>
      forall₂_map_left (f := fun e : k.Val × v.Val => (k.reread e.1, v.reread e.2))
        fun e => ⟨k.same_reread e.1, v.same_reread e.2⟩
  | .option _, none => .none
  | .option s, some x => .some (s.same_reread x)
  | .tuple r, x => r.same_reread x
  | .struct r, x => r.same_reread x
  | .variant a, x => a.same_reread x
  | .nil, _ | .bool, _ | .int .., _ | .carried _, _ | .number, _ | .char, _ | .text .., _
  | .binary _, _ | .extension _, _ | .fixedExtension _, _ | .timestamp _, _ | .instant _, _
  | .value _, _ => rfl

theorem Row.same_reread : (r : Row) → (x : r.Val) → r.Same (r.reread x) x
  | .nil, _ => trivial
  | .cons _ s rest, (x, xs) => ⟨s.same_reread x, rest.same_reread xs⟩

theorem Alternatives.same_reread : (a : Alternatives) → (x : a.Val) → a.Same (a.reread x) x
  | .last _ c, x => c.same_reread x
  | .cons _ c _, .inl x => c.same_reread x
  | .cons _ _ rest, .inr x => rest.same_reread x

theorem Content.same_reread : (c : Content) → (x : c.Val) → c.Same (c.reread x) x
  | .unit, _ => trivial
  | .item s, x => s.same_reread x

end

/-! ### The order of keys -/

theorem FloatBits.compare_of_same {p : Precision} {x y x' y' : FloatBits p}
    (hx : x = x' ∨ x.isNaN ∧ x'.isNaN) (hy : y = y' ∨ y.isNaN ∧ y'.isNaN) :
    x.compare y = x'.compare y' := by
  rcases hx with rfl | ⟨hx, hx'⟩
  · rcases hy with rfl | ⟨hy, hy'⟩
    · rfl
    · simp [FloatBits.compare, hy, hy']
  · simp [FloatBits.compare, hx, hx']

theorem compareLex_map {α : Type} {cmp : α → α → Ordering} {f : α → α}
    (h : ∀ x y, cmp (f x) (f y) = cmp x y) (xs ys : List α) :
    (xs.map f).compareLex cmp (ys.map f) = xs.compareLex cmp ys := by
  induction xs generalizing ys with
  | nil => cases ys <;> rfl
  | cons x xs ih =>
      cases ys with
      | nil => rfl
      | cons y ys => simp only [List.map_cons, List.compareLex, h, ih]

mutual

theorem Schema.compare_reread : (s : Schema) → (x y : s.Val) →
    s.compare (s.reread x) (s.reread y) = s.compare x y
  | .float .single, x, y =>
      FloatBits.compare_of_same (Single.same_narrow_widen x) (Single.same_narrow_widen y)
  | .float .double, _, _ => rfl
  | .list s, (xs : List s.Val), (ys : List s.Val) => compareLex_map s.compare_reread xs ys
  | .map k v, (es : List (k.Val × v.Val)), (fs : List (k.Val × v.Val)) => by
      refine compareLex_map (f := fun e : k.Val × v.Val => (k.reread e.1, v.reread e.2))
        (fun e f => ?_) es fs
      simp only [Order.pair, k.compare_reread, v.compare_reread]
  | .option _, none, none => rfl
  | .option _, none, some _ => rfl
  | .option _, some _, none => rfl
  | .option s, some x, some y => s.compare_reread x y
  | .tuple r, x, y => r.compare_reread x y
  | .struct r, x, y => r.compare_reread x y
  | .variant a, x, y => a.compare_reread x y
  | .nil, _, _ | .bool, _, _ | .int .., _, _ | .carried _, _, _ | .number, _, _ | .char, _, _
  | .text .., _, _ | .binary _, _, _ | .extension _, _, _ | .fixedExtension _, _, _
  | .timestamp _, _, _ | .instant _, _, _ | .value _, _, _ => rfl

theorem Row.compare_reread : (r : Row) → (x y : r.Val) →
    r.compare (r.reread x) (r.reread y) = r.compare x y
  | .nil, _, _ => rfl
  | .cons _ s rest, (x, xs), (y, ys) => by
      simp only [Row.compare, Row.reread, s.compare_reread, rest.compare_reread]

theorem Alternatives.compare_reread : (a : Alternatives) → (x y : a.Val) →
    a.compare (a.reread x) (a.reread y) = a.compare x y
  | .last _ c, x, y => c.compare_reread x y
  | .cons _ c _, .inl x, .inl y => c.compare_reread x y
  | .cons .., .inl _, .inr _ => rfl
  | .cons .., .inr _, .inl _ => rfl
  | .cons _ _ rest, .inr x, .inr y => rest.compare_reread x y

theorem Content.compare_reread : (c : Content) → (x y : c.Val) →
    c.compare (c.reread x) (c.reread y) = c.compare x y
  | .unit, _, _ => rfl
  | .item s, x, y => s.compare_reread x y

end

section Entries

variable {α β : Type} {cmp : α → α → Ordering}

theorem insertEntry_greatest {found : List (α × β)} {key : α} {val : β}
    (h : ∀ e ∈ found, cmp key e.1 = .gt) :
    insertEntry cmp key val found = found ++ [(key, val)] := by
  induction found with
  | nil => rfl
  | cons e found ih =>
      rw [List.forall_mem_cons] at h
      rw [insertEntry, h.1, List.cons_append, ← ih h.2]

theorem foldl_insertEntry {found es : List (α × β)}
    (h : (found ++ es).Pairwise fun e f => cmp f.1 e.1 = .gt) :
    es.foldl (fun found e => insertEntry cmp e.1 e.2 found) found = found ++ es := by
  induction es generalizing found with
  | nil => exact (List.append_nil found).symm
  | cons e es ih =>
      have hgreatest : ∀ f ∈ found, cmp e.1 f.1 = .gt := fun f hf =>
        (List.pairwise_append.mp h).2.2 f hf e List.mem_cons_self
      rw [List.foldl_cons, insertEntry_greatest hgreatest, ih (by simpa using h)]
      simp

/-- Entries in ascending order are a map as they stand. -/
theorem mapOfEntries_of_ascending {es : List (α × β)}
    (h : es.Pairwise fun e f => cmp f.1 e.1 = .gt) : mapOfEntries cmp es = es :=
  foldl_insertEntry h

theorem mapOfEntries_concat (es : List (α × β)) (e : α × β) :
    mapOfEntries cmp (es ++ [e]) = insertEntry cmp e.1 e.2 (mapOfEntries cmp es) :=
  List.foldl_concat ..

variable {f : α → α} {g : β → β}

theorem insertEntry_map (h : ∀ x y, cmp (f x) (f y) = cmp x y) (key : α) (val : β)
    (found : List (α × β)) :
    insertEntry cmp (f key) (g val) (found.map fun e => (f e.1, g e.2)) =
      (insertEntry cmp key val found).map fun e => (f e.1, g e.2) := by
  induction found with
  | nil => rfl
  | cons e found ih =>
      rw [List.map_cons, insertEntry, insertEntry, h, ih]
      cases cmp key e.1 <;> rfl

/-- Keys that compare as before are as good as those before. -/
theorem mapOfEntries_map (h : ∀ x y, cmp (f x) (f y) = cmp x y) (es : List (α × β)) :
    mapOfEntries cmp (es.map fun e => (f e.1, g e.2)) =
      (mapOfEntries cmp es).map fun e => (f e.1, g e.2) := by
  induction es using List.reverseRecOn with
  | nil => rfl
  | append_singleton es e ih =>
      rw [List.map_append, mapOfEntries_concat, ← insertEntry_map h, ← ih]
      exact mapOfEntries_concat ..

end Entries

/-- A map is read as the map of what is read of its entries. -/
theorem mapOfEntries_reread {k v : Schema} (es : List (k.Val × v.Val)) :
    mapOfEntries k.compare ((Schema.map k v).reread es) =
      (Schema.map k v).reread (mapOfEntries k.compare es) :=
  mapOfEntries_map k.compare_reread es

end MsgPack
