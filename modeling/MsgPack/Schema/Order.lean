import MsgPack.Schema.Basic

/-!
The order of objects, which is the order of keys in a map: numbers by value,
texts and binaries by unsigned bytes, everything composite lexicographically.
-/

namespace MsgPack

namespace Order

/-- Lexicographic order of pairs. -/
def pair {α β : Type} (first : α → α → Ordering) (second : β → β → Ordering)
    (x y : α × β) : Ordering :=
  (first x.1 y.1).then (second x.2 y.2)

def bytes (x y : Bytes) : Ordering := x.compareLex (fun a b => compare a.toNat b.toNat) y

/-- Integers come before floats. -/
def number : Number → Number → Ordering
  | .int i, .int j => compare i.val j.val
  | .int _, .float _ => .lt
  | .float _, .int _ => .gt
  | .float x, .float y => x.compare y

def extension (x y : Extension) : Ordering :=
  (compare x.type.toInt y.type.toInt).then (bytes x.data y.data)

/-- The rank of a kind among the kinds. -/
def kindRank : ValueKind → Nat
  | .nil => 0
  | .boolean => 1
  | .binary => 2
  | .extension => 3
  | .number => 4
  | .string => 5
  | .array => 6
  | .map => 7

mutual

/-- Values of different kinds are ordered by kind. -/
def value : OwnedValue → OwnedValue → Ordering
  | .bool a, .bool b => compare a.toNat b.toNat
  | .binary a, .binary b => bytes a b
  | .extension s a, .extension t b => extension ⟨s, a⟩ ⟨t, b⟩
  | .number a, .number b => number a b
  | .string a, .string b => bytes a b
  | .array as, .array bs => values as bs
  | .map as, .map bs => entries as bs
  | a, b => compare (kindRank a.kind) (kindRank b.kind)

def values : List OwnedValue → List OwnedValue → Ordering
  | [], [] => .eq
  | [], _ :: _ => .lt
  | _ :: _, [] => .gt
  | a :: as, b :: bs => (value a b).then (values as bs)

def entries : List (OwnedValue × OwnedValue) → List (OwnedValue × OwnedValue) → Ordering
  | [], [] => .eq
  | [], _ :: _ => .lt
  | _ :: _, [] => .gt
  | (j, a) :: as, (k, b) :: bs => ((value j k).then (value a b)).then (entries as bs)

end

end Order

mutual

def Schema.compare : (s : Schema) → s.Val → s.Val → Ordering
  | .nil, _, _ => .eq
  | .bool, (x : Bool), (y : Bool) => Ord.compare x.toNat y.toNat
  | .int .., (x : IntType.Value _), (y : IntType.Value _) => Ord.compare x.val y.val
  | .carried _, (x : IntType.Value _), (y : IntType.Value _) => Ord.compare x.val y.val
  | .float _, (x : FloatBits _), (y : FloatBits _) => x.compare y
  | .number, (x : Number), (y : Number) => Order.number x y
  | .char, (x : UInt32), (y : UInt32) => Ord.compare x.toNat y.toNat
  | .text .., (x : Bytes), (y : Bytes) => Order.bytes x y
  | .binary _, (x : Bytes), (y : Bytes) => Order.bytes x y
  | .extension _, (x : Extension), (y : Extension) => Order.extension x y
  | .fixedExtension _, (x : FixedExtension _), (y : FixedExtension _) =>
    Order.extension x.ext y.ext
  | .timestamp _, (x : Timestamp _), (y : Timestamp _) =>
    (Ord.compare x.seconds y.seconds).then (Ord.compare x.nanoseconds y.nanoseconds)
  | .instant _, (x : Instant _), (y : Instant _) => Ord.compare x.count y.count
  | .value _, (x : OwnedValue), (y : OwnedValue) => Order.value x y
  | .list s, (x : List s.Val), (y : List s.Val) => x.compareLex s.compare y
  | .map k v, (x : List (k.Val × v.Val)), (y : List (k.Val × v.Val)) =>
    x.compareLex (Order.pair k.compare v.compare) y
  | .option _, none, none => .eq
  | .option _, none, some _ => .lt
  | .option _, some _, none => .gt
  | .option s, some x, some y => s.compare x y
  | .tuple r, x, y => r.compare x y
  | .struct r, x, y => r.compare x y
  | .variant a, x, y => a.compare x y

def Row.compare : (r : Row) → r.Val → r.Val → Ordering
  | .nil, _, _ => .eq
  | .cons _ s rest, (x, xs), (y, ys) => (s.compare x y).then (rest.compare xs ys)

def Alternatives.compare : (a : Alternatives) → a.Val → a.Val → Ordering
  | .last _ c, x, y => c.compare x y
  | .cons _ c _, .inl x, .inl y => c.compare x y
  | .cons .., .inl _, .inr _ => .lt
  | .cons .., .inr _, .inl _ => .gt
  | .cons _ _ rest, .inr x, .inr y => rest.compare x y

def Content.compare : (c : Content) → c.Val → c.Val → Ordering
  | .unit, _, _ => .eq
  | .item s, x, y => s.compare x y

end

/-- Binds `key` to `val` in a list of entries in ascending order of keys,
in place of what it was bound to before. -/
def insertEntry {α β : Type} (cmp : α → α → Ordering) (key : α) (val : β) :
    List (α × β) → List (α × β)
  | [] => [(key, val)]
  | (k, v) :: rest =>
    match cmp key k with
    | .lt => (key, val) :: (k, v) :: rest
    | .eq => (k, val) :: rest
    | .gt => (k, v) :: insertEntry cmp key val rest

/-- The map of a sequence of entries. Of several with one key the last
counts. -/
def mapOfEntries {α β : Type} (cmp : α → α → Ordering) (entries : List (α × β)) :
    List (α × β) :=
  entries.foldl (fun found (k, v) => insertEntry cmp k v found) []

end MsgPack
