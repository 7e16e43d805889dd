import MsgPack.Proofs.Schema.Sinks

/-!
A plain object is archived as it is encoded. The archive tells it event by event
and keeps account of the scopes, the direct encoding follows its schema, and
both hand the same runs to the sink.
-/

namespace MsgPack

/-! ### Plain objects as trees -/

mutual

/-- Nothing is asked of a plain object to be told as a tree. -/
theorem Schema.tells_plain : (s : Schema) → s.plain → (x : s.Val) → Tells (s.events x) (s.tree x)
  | .nil, _, _ => .nil
  | .bool, _, b => .bool b
  | .int t _, _, i => .int t i
  | .float p, _, x => .float p x
  | .number, _, n => Number.tells_tree n
  | .text .., _, bs => .text bs
  | .binary _, _, bs => MsgPack.tells_binary bs
  | .extension _, _, e => .extension e
  | .fixedExtension _, _, (e : FixedExtension _) => .extension e.ext
  | .timestamp _, _, (t : Timestamp _) => .extension t.toExtension
  | .instant _, _, (t : Instant _) => .extension _
  | .value _, _, (v : OwnedValue) => v.tells_tree
  | .list s, h, (xs : List s.Val) => by
      have hs : TellsElems (xs.flatMap s.events) (xs.map s.tree) :=
        tellsElems_map fun x _ => s.tells_plain h x
      have hlen : (xs.map s.tree).length = xs.length := List.length_map _
      rw [Schema.events, ← hlen]
      exact .array hs
  | .map k v, h, (es : List (k.Val × v.Val)) => by
      have h' := Bool.and_eq_true_iff.mp h
      have hs : TellsEntries _ (es.map fun e => (k.tree e.1, v.tree e.2)) :=
        tellsEntries_map fun e _ => ⟨k.tells_plain h'.1 e.1, v.tells_plain h'.2 e.2⟩
      have hlen : (es.map fun e => (k.tree e.1, v.tree e.2)).length = es.length :=
        List.length_map _
      rw [Schema.events, ← hlen]
      exact .map hs
  | .option _, _, none => .nil
  | .option s, h, some x => s.tells_plain h x
  | .tuple r, h, x => by
      rw [Schema.events, ← r.length_trees x]
      exact .array (r.tells_plain h x)

theorem Row.tells_plain : (r : Row) → r.plain → (x : r.Val) → TellsElems (r.events x) (r.trees x)
  | .nil, _, _ => .nil
  | .cons _ s rest, h, (x, xs) => by
      have h' := Bool.and_eq_true_iff.mp h
      exact .cons (s.tells_plain h'.1 x) (rest.tells_plain h'.2 xs)

end

/-- Archiving a plain object writes its events one after another. -/
theorem Schema.delivery_plain {s : Schema} (h : s.plain) (policy : EncodePolicy) (x : s.Val) :
    s.delivery policy x = fun kind => Event.putAll policy (s.events x) { kind } := by
  have htells := s.tells_plain h x
  have hroot : Scopes.nextElement [] = .ok () [] := rfl
  exact delivery_eq htells.unrefused (htells.tell hroot)

/-! ### Numbers and values -/

theorem Number.putAll_event (policy : EncodePolicy) (n : Number) :
    Event.putAll policy [Event.number n] = policy.number n := by
  rw [Event.putAll_singleton]
  cases n <;> rfl

namespace Value

open Event (putAll)

variable {policy : EncodePolicy}

mutual

theorem putAll_events (v : OwnedValue) : putAll policy v.events = v.put policy := by
  cases v with
  | nil => exact Event.putAll_singleton _
  | bool b => exact Event.putAll_singleton _
  | number n => exact Number.putAll_event policy n
  | string bs => exact Event.putAll_singleton _
  | extension t bs => exact Event.putAll_singleton _
  | binary bs => exact Event.putAll_binary bs
  | array elems =>
      have hend : Event.endArray.put policy = pure 0 := rfl
      rw [events, Event.putAll_container _ _ hend]
      exact bind_congr fun header => putAll_elemEvents elems header
  | map entries =>
      have hend : Event.endMap.put policy = pure 0 := rfl
      rw [events, Event.putAll_container _ _ hend]
      exact bind_congr fun header => putAll_entryEvents entries header
termination_by structural v

theorem putAll_elemEvents (vs : List OwnedValue) (n : Nat) :
    (do return n + (← putAll policy (elemEvents vs))) = putElems policy vs n := by
  cases vs with
  | nil => simp only [elemEvents, putAll, pure_bind, Nat.add_zero, putElems]
  | cons v vs =>
      simp only [elemEvents, Event.putAll_append, putAll_events v, bind_assoc, pure_bind, putElems,
        ← putAll_elemEvents vs, Nat.add_assoc]
termination_by structural vs

theorem putAll_entryEvents (es : List (OwnedValue × OwnedValue)) (n : Nat) :
    (do return n + (← putAll policy (entryEvents es))) = putEntries policy es n := by
  cases es with
  | nil => simp only [entryEvents, putAll, pure_bind, Nat.add_zero, putEntries]
  | cons e es =>
      obtain ⟨k, v⟩ := e
      have hkey : Event.key.put policy = pure 0 := rfl
      simp only [entryEvents, putAll, hkey, Event.putAll_append, putAll_events k, putAll_events v,
        bind_assoc, pure_bind, putEntries, ← putAll_entryEvents es, Nat.zero_add, Nat.add_assoc]
termination_by structural es

end

end Value

namespace Schema

variable (policy : EncodePolicy)

theorem delivery_number (n : Number) :
    number.delivery policy n = fun kind => policy.number n { kind } := by
  have hplain : number.plain := rfl
  exact (delivery_plain hplain policy n).trans
    (funext fun kind => congrFun (Number.putAll_event policy n) { kind })

theorem delivery_value (storage : Storage) (v : OwnedValue) :
    (value storage).delivery policy v = fun kind => v.put policy { kind } := by
  have hplain : (value storage).plain := rfl
  exact (delivery_plain hplain policy v).trans
    (funext fun kind => congrFun (Value.putAll_events v) { kind })

end Schema

/-! ### Objects whose schema settles every encoding -/

mutual

/-- Whether no schema in `s` is one of those. -/
def Schema.lacks (these : Schema → Bool) : Schema → Bool
  | .list s | .option s => s.lacks these
  | .map k v => k.lacks these && v.lacks these
  | .tuple r | .struct r => r.lacks these
  | .variant a => a.lacks these
  | s => !these s

def Row.lacks (these : Schema → Bool) : Row → Bool
  | .nil => true
  | .cons _ s rest => s.lacks these && rest.lacks these

def Alternatives.lacks (these : Schema → Bool) : Alternatives → Bool
  | .last _ c => c.lacks these
  | .cons _ c rest => c.lacks these && rest.lacks these

def Content.lacks (these : Schema → Bool) : Content → Bool
  | .unit => true
  | .item s => s.lacks these

end

namespace Schema

def isValue : Schema → Bool
  | value _ => true
  | _ => false

/-- Whether an object itself says what it is written as. -/
def isUntyped : Schema → Bool
  | number => true
  | s => s.isValue

end Schema

mutual

theorem Schema.putAll_events : (s : Schema) → (h : s.plain) → s.lacks Schema.isUntyped →
    (x : s.Val) → Event.putAll .exact (s.events x) = s.encode h x
  | .nil, _, _, _ => Event.putAll_singleton _
  | .bool, _, _, _ => Event.putAll_singleton _
  | .int _ _, _, _, _ => Event.putAll_singleton _
  | .float _, _, _, _ => Event.putAll_singleton _
  | .text _ _, _, _, _ => Event.putAll_singleton _
  | .binary _, _, _, bs => Event.putAll_binary bs
  | .extension _, _, _, _ => Event.putAll_singleton _
  | .fixedExtension _, _, _, _ => Event.putAll_singleton _
  | .timestamp _, _, _, _ => Event.putAll_singleton _
  | .instant _, _, _, _ => Event.putAll_singleton _
  | .list s, h, hs, (xs : List s.Val) => by
      have hend : Event.endArray.put .exact = pure 0 := rfl
      rw [Schema.events, Event.putAll_container _ _ hend]
      refine bind_congr fun header => Event.putAll_flatMap (fun n x => ?_) xs header
      rw [s.putAll_events h hs x]
  | .map k v, h, hs, (es : List (k.Val × v.Val)) => by
      have h' := Bool.and_eq_true_iff.mp h
      have hs' := Bool.and_eq_true_iff.mp hs
      have hkey : Event.key.put .exact = pure 0 := rfl
      have hend : Event.endMap.put .exact = pure 0 := rfl
      rw [Schema.events, Event.putAll_container _ _ hend]
      refine bind_congr fun header => Event.putAll_flatMap (fun n e => ?_) es header
      simp only [Event.putAll, hkey, Event.putAll_append, k.putAll_events h'.1 hs'.1 e.1,
        v.putAll_events h'.2 hs'.2 e.2, bind_assoc, pure_bind, Nat.zero_add, Nat.add_assoc]
  | .option _, _, _, none => Event.putAll_singleton _
  | .option s, h, hs, some x => s.putAll_events h hs x
  | .tuple r, h, hs, x => by
      have hend : Event.endArray.put .exact = pure 0 := rfl
      rw [Schema.events, Event.putAll_container _ _ hend, r.putAll_events h hs x]
      exact bind_congr fun header => (r.encode_written h x header).symm

theorem Row.putAll_events : (r : Row) → (h : r.plain) → r.lacks Schema.isUntyped → (x : r.Val) →
    Event.putAll .exact (r.events x) = r.encode h x 0
  | .nil, _, _, _ => rfl
  | .cons _ s rest, h, hs, (x, xs) => by
      have h' := Bool.and_eq_true_iff.mp h
      have hs' := Bool.and_eq_true_iff.mp hs
      rw [Row.events, Event.putAll_append, s.putAll_events h'.1 hs'.1 x,
        rest.putAll_events h'.2 hs'.2 xs, Row.encode]
      refine bind_congr fun n => ?_
      rw [Nat.zero_add, rest.encode_written h'.2 xs n]

end

end MsgPack
