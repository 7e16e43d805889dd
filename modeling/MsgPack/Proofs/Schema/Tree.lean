import MsgPack.Proofs.Utf8
import MsgPack.Proofs.Writer.Encoding
import MsgPack.Schema.Events
import MsgPack.Schema.Order

/-!
The trees of objects, and what lets an object be told and found again. Of its
schema that is that names lead to one thing each, of the object that everything
in it can be spelled and that nothing in its tree can be taken for something
else.
-/

namespace MsgPack

open Put (maxLength)

/-- Numbers as they are told: in the widest type of their sign. -/
def Number.tree : Number → Tree
  | .int i =>
    let t : IntType := if i.val < 0 then .i64 else .u64
    .int t (t.wrap i.val)
  | .float x => .float .double x

theorem Number.tells_tree (n : Number) : Tells [Event.number n] n.tree := by
  cases n with
  | int i => exact .int _ _
  | float x => exact .float .double x

theorem tells_binary (bs : Bytes) : Tells (Event.binary bs) (.binary bs) := by
  have h := Tells.binary [bs]
  rwa [List.flatten_singleton] at h

namespace Value

mutual

def tree : OwnedValue → Tree
  | nil => .nil
  | bool b => .bool b
  | binary bs => .binary bs
  | extension t bs => .extension ⟨t, bs⟩
  | number n => n.tree
  | string bs => .text bs
  | array elems => .array (elemTrees elems)
  | map entries => .map (entryTrees entries)

def elemTrees : List OwnedValue → List Tree
  | [] => []
  | v :: vs => tree v :: elemTrees vs

def entryTrees : List (OwnedValue × OwnedValue) → List (Tree × Tree)
  | [] => []
  | (k, v) :: es => (tree k, tree v) :: entryTrees es

end

theorem length_elemTrees (vs : List OwnedValue) : (elemTrees vs).length = vs.length := by
  induction vs with
  | nil => rfl
  | cons v vs ih => rw [elemTrees, List.length_cons, ih, List.length_cons]

theorem length_entryTrees (es : List (OwnedValue × OwnedValue)) :
    (entryTrees es).length = es.length := by
  induction es with
  | nil => rfl
  | cons e es ih => rw [entryTrees, List.length_cons, ih, List.length_cons]

mutual

/-- A value is told as its tree. -/
theorem tells_tree (v : OwnedValue) : Tells v.events v.tree := by
  cases v with
  | nil => exact .nil
  | bool b => exact .bool b
  | binary bs => exact tells_binary bs
  | extension t bs => exact .extension ⟨t, bs⟩
  | number n => exact n.tells_tree
  | string bs => exact .text bs
  | array elems =>
      rw [events, ← length_elemTrees]
      exact .array (tells_elemTrees elems)
  | map entries =>
      rw [events, ← length_entryTrees]
      exact .map (tells_entryTrees entries)
termination_by structural v

theorem tells_elemTrees (vs : List OwnedValue) : TellsElems (elemEvents vs) (elemTrees vs) := by
  cases vs with
  | nil => exact .nil
  | cons v vs => exact .cons (tells_tree v) (tells_elemTrees vs)
termination_by structural vs

theorem tells_entryTrees (es : List (OwnedValue × OwnedValue)) :
    TellsEntries (entryEvents es) (entryTrees es) := by
  cases es with
  | nil => exact .nil
  | cons e es =>
      obtain ⟨k, v⟩ := e
      rw [entryEvents, List.append_assoc]
      exact .cons (tells_tree k) (tells_tree v) (tells_entryTrees es)
termination_by structural es

end

end Value

mutual

/-- The tree that an object is told as. -/
def Schema.tree : (s : Schema) → s.Val → Tree
  | .nil, _ => .nil
  | .bool, b => .bool b
  | .int t _, i => .int t i
  | .carried t, (i : IntType.Value _) => .int t.widest (t.widest.wrap i.val)
  | .float p, x => .float p x
  | .number, n => Number.tree n
  | .char, (c : UInt32) => .text ((Utf8.encode? c.toNat).getD [])
  | .text .., bs => .text bs
  | .binary _, bs => .binary bs
  | .extension _, e => .extension e
  | .fixedExtension _, (e : FixedExtension _) => .extension e.ext
  | .timestamp _, (t : Timestamp _) => .extension t.toExtension
  | .instant _, (t : Instant _) => .extension (Timestamp.smallest t.toNanos).2.toExtension
  | .value _, (v : OwnedValue) => v.tree
  | .list s, (xs : List s.Val) => .array (xs.map s.tree)
  | .map k v, (es : List (k.Val × v.Val)) => .map (es.map fun e => (k.tree e.1, v.tree e.2))
  | .option _, none => .nil
  | .option s, some x => s.tree x
  | .tuple r, x => .array (r.trees x)
  | .struct r, x => .map (r.fieldTrees x)
  | .variant a, x => a.tree x

def Row.trees : (r : Row) → r.Val → List Tree
  | .nil, _ => []
  | .cons _ s rest, (x, xs) => s.tree x :: rest.trees xs

def Row.fieldTrees : (r : Row) → r.Val → List (Tree × Tree)
  | .nil, _ => []
  | .cons name s rest, (x, xs) => (.text name, s.tree x) :: rest.fieldTrees xs

def Alternatives.tree : (a : Alternatives) → a.Val → Tree
  | .last name c, x => c.tree name x
  | .cons name c _, .inl x => c.tree name x
  | .cons _ _ rest, .inr x => rest.tree x

def Content.tree : (c : Content) → (name : Bytes) → c.Val → Tree
  | .unit, name, _ => .text name
  | .item s, name, x => .map [(.text name, s.tree x)]

end

/-! ### Names -/

/-- Whether a text can be told and is taken back: a header holds its length, and
it is valid. -/
def Legible (bs : Bytes) : Prop := bs.length ≤ maxLength ∧ Utf8.isValid bs

instance (bs : Bytes) : Decidable (Legible bs) := inferInstanceAs (Decidable (_ ∧ _))

/-- Names that tell things apart. -/
structure Naming (names : List Bytes) : Prop where
  nodup : names.Nodup
  legible : ∀ name ∈ names, Legible name

mutual

/-- Whether names lead to one thing each, all over a schema: no two fields of a
struct and no two alternatives of a union share a name, and all these names are
legible. -/
def Schema.WellNamed : Schema → Prop
  | .list s | .option s => s.WellNamed
  | .map k v => k.WellNamed ∧ v.WellNamed
  | .tuple r => r.WellNamed
  | .struct r => Naming r.names ∧ r.WellNamed
  | .variant a => Naming a.names ∧ a.WellNamed
  | _ => True

/-- The names of the items themselves are a matter of what the row is for. -/
def Row.WellNamed : Row → Prop
  | .nil => True
  | .cons _ s rest => s.WellNamed ∧ rest.WellNamed

def Alternatives.WellNamed : Alternatives → Prop
  | .last _ c => c.WellNamed
  | .cons _ c rest => c.WellNamed ∧ rest.WellNamed

def Content.WellNamed : Content → Prop
  | .unit => True
  | .item s => s.WellNamed

end

/-! ### Objects -/

mutual

/-- What lets an object of a well-named schema come back as it was. Headers hold
the lengths in it and its texts are valid; characters are scalar values; the
clock is trusted with instants; each key of a map is greater than those before
it; and what an option holds is not told as the nil that stands for nothing. -/
def Schema.Storable : (s : Schema) → s.Val → Prop
  | .char, (c : UInt32) => Utf8.IsScalar c.toNat
  | .text .., (bs : Bytes) => Legible bs
  | .binary _, (bs : Bytes) => bs.length ≤ maxLength
  | .extension _, (e : Extension) => e.data.length ≤ maxLength
  | .fixedExtension _, (e : FixedExtension _) => e.ext.data.length ≤ maxLength
  | .instant _, (t : Instant _) =>
    -Timestamp.clockLimit ≤ t.toNanos.floorSeconds ∧ t.toNanos.floorSeconds ≤ Timestamp.clockLimit
  | .value _, (v : OwnedValue) => v.tree.Everywhere Tree.Short ∧ v.tree.Everywhere Tree.Spelled
  | .list s, (xs : List s.Val) => xs.length ≤ maxLength ∧ ∀ x ∈ xs, s.Storable x
  | .map k v, (es : List (k.Val × v.Val)) =>
    es.length ≤ maxLength ∧ es.Pairwise (fun e f => k.compare f.1 e.1 = .gt) ∧
      ∀ e ∈ es, k.Storable e.1 ∧ v.Storable e.2
  | .option _, none => True
  | .option s, some x => s.tree x ≠ .nil ∧ s.Storable x
  | .tuple r, x => r.length ≤ maxLength ∧ r.Storable x
  | .struct r, x => r.length ≤ maxLength ∧ r.Storable x
  | .variant a, x => a.Storable x
  | _, _ => True

def Row.Storable : (r : Row) → r.Val → Prop
  | .nil, _ => True
  | .cons _ s rest, (x, xs) => s.Storable x ∧ rest.Storable xs

def Alternatives.Storable : (a : Alternatives) → a.Val → Prop
  | .last _ c, x => c.Storable x
  | .cons _ c _, .inl x => c.Storable x
  | .cons _ _ rest, .inr x => rest.Storable x

def Content.Storable : (c : Content) → c.Val → Prop
  | .unit, _ => True
  | .item s, x => s.Storable x

end

theorem Row.length_trees : (r : Row) → (x : r.Val) → (r.trees x).length = r.length
  | .nil, _ => rfl
  | .cons _ _ rest, (_, xs) => congrArg (· + 1) (rest.length_trees xs)

theorem Row.length_fieldTrees : (r : Row) → (x : r.Val) → (r.fieldTrees x).length = r.length
  | .nil, _ => rfl
  | .cons _ _ rest, (_, xs) => congrArg (· + 1) (rest.length_fieldTrees xs)

section Lists

variable {α β : Type}

theorem tellsElems_map {events : α → List Event} {tree : α → Tree} {xs : List α}
    (h : ∀ x ∈ xs, Tells (events x) (tree x)) :
    TellsElems (xs.flatMap events) (xs.map tree) := by
  induction xs with
  | nil => exact .nil
  | cons x xs ih =>
      rw [List.forall_mem_cons] at h
      exact .cons h.1 (ih h.2)

theorem tellsEntries_map {keys : α → List Event} {vals : β → List Event} {key : α → Tree}
    {val : β → Tree} {es : List (α × β)}
    (h : ∀ e ∈ es, Tells (keys e.1) (key e.1) ∧ Tells (vals e.2) (val e.2)) :
    TellsEntries (es.flatMap fun e => .key :: (keys e.1 ++ vals e.2))
      (es.map fun e => (key e.1, val e.2)) := by
  induction es with
  | nil => exact .nil
  | cons e es ih =>
      rw [List.forall_mem_cons] at h
      rw [List.flatMap_cons, List.cons_append, List.append_assoc]
      exact .cons h.1.1 h.1.2 (ih h.2)

end Lists

/-- Entries are told in whatever order they are. -/
theorem Schema.tells_map {k v : Schema} {es : List (k.Val × v.Val)}
    (h : ∀ e ∈ es, Tells (k.events e.1) (k.tree e.1) ∧ Tells (v.events e.2) (v.tree e.2)) :
    Tells ((map k v).events es) ((map k v).tree es) := by
  have hlen : (es.map fun e => (k.tree e.1, v.tree e.2)).length = es.length := List.length_map _
  rw [Schema.events, ← hlen]
  exact .map (tellsEntries_map h)

mutual

/-- An object is told as its tree. -/
theorem Schema.tells_tree : (s : Schema) → {x : s.Val} → s.Storable x →
    Tells (s.events x) (s.tree x)
  | .nil, _, _ => .nil
  | .bool, b, _ => .bool b
  | .int t _, i, _ => .int t i
  | .carried _, _, _ => .int _ _
  | .float p, x, _ => .float p x
  | .number, n, _ => Number.tells_tree n
  | .char, _, h => .char (Utf8.encode_of_isScalar h)
  | .text .., bs, _ => .text bs
  | .binary _, bs, _ => tells_binary bs
  | .extension _, e, _ => .extension e
  | .fixedExtension _, (e : FixedExtension _), _ => .extension e.ext
  | .timestamp _, (t : Timestamp _), _ => .extension t.toExtension
  | .instant _, (t : Instant _), _ => .extension _
  | .value _, (v : OwnedValue), _ => v.tells_tree
  | .list s, (xs : List s.Val), h => by
      have hs := tellsElems_map fun x hx => s.tells_tree (h.2 x hx)
      have hlen : (xs.map s.tree).length = xs.length := List.length_map _
      rw [Schema.events, ← hlen]
      exact .array hs
  | .map k v, (_ : List (k.Val × v.Val)), h => Schema.tells_map fun e he =>
      ⟨k.tells_tree (h.2.2 e he).1, v.tells_tree (h.2.2 e he).2⟩
  | .option _, none, _ => .nil
  | .option s, some _, h => s.tells_tree h.2
  | .tuple r, x, h => by
      rw [Schema.events, ← r.length_trees x]
      exact .array (r.tells_trees h.2)
  | .struct r, x, h => by
      rw [Schema.events, ← r.length_fieldTrees x]
      exact .map (r.tells_fieldTrees h.2)
  | .variant a, _, h => a.tells_tree h

theorem Row.tells_trees : (r : Row) → {x : r.Val} → r.Storable x →
    TellsElems (r.events x) (r.trees x)
  | .nil, _, _ => .nil
  | .cons _ s rest, (_, _), h => .cons (s.tells_tree h.1) (rest.tells_trees h.2)

theorem Row.tells_fieldTrees : (r : Row) → {x : r.Val} → r.Storable x →
    TellsEntries (r.fieldEvents x) (r.fieldTrees x)
  | .nil, _, _ => .nil
  | .cons name s rest, (x, xs), h => by
      have hrest := TellsEntries.cons (.text name) (s.tells_tree h.1) (rest.tells_fieldTrees h.2)
      simpa [Row.fieldEvents, Row.fieldTrees, Event.field] using hrest

theorem Alternatives.tells_tree : (a : Alternatives) → {x : a.Val} → a.Storable x →
    Tells (a.events x) (a.tree x)
  | .last name c, _, h => c.tells_tree name h
  | .cons name c _, .inl _, h => c.tells_tree name h
  | .cons _ _ rest, .inr _, h => rest.tells_tree h

theorem Content.tells_tree : (c : Content) → (name : Bytes) → {x : c.Val} → c.Storable x →
    Tells (c.events name x) (c.tree name x)
  | .unit, name, _, _ => .text name
  | .item s, name, x, h => by
      have hentry := Tells.map (.cons (.text name) (s.tells_tree h) .nil)
      simpa [Content.events, Content.tree, Event.beginVariant] using hentry

end

end MsgPack
