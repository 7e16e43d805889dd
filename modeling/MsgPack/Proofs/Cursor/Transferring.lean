import MsgPack.Proofs.Cursor.Mirroring
import MsgPack.Proofs.Cursor.Retrying
import MsgPack.Proofs.Cursor.Skipping
import MsgPack.Proofs.Value.Encoding
import MsgPack.Proofs.Writer.Assembly
import MsgPack.Proofs.Writer.Delivery
import MsgPack.Proofs.Writer.WellFormed

/-!
Moving a value from a cursor to a writer is reading the value and telling it.
The two go on in lockstep: whatever a step reads is told before the next one
reads, and where reading and telling both succeed, so do they side by side. A
value that was read is taken by a serializer and by a builder.
-/

namespace MsgPack

/-! ### Runs of events -/

theorem Writer.run_append_ok {ω : Type} [Writer ω] {es es' : List Event} {w w' : ω}
    (h : Writer.run (es ++ es') w = .ok () w') :
    ∃ u, Writer.run es w = .ok () u ∧ Writer.run es' u = .ok () w' := by
  rw [Writer.run_append] at h
  obtain ⟨_, u, hfirst, hrest⟩ := bind_eq_ok_iff.mp h
  exact ⟨u, hfirst, hrest⟩

theorem Writer.run_cons_ok {ω : Type} [Writer ω] {e : Event} {es : List Event} {w w' : ω}
    (h : Writer.run (e :: es) w = .ok () w') :
    ∃ u, Writer.step e w = .ok () u ∧ Writer.run es u = .ok () w' := by
  rw [Writer.run_cons] at h
  obtain ⟨_, u, hfirst, hrest⟩ := bind_eq_ok_iff.mp h
  exact ⟨u, hfirst, hrest⟩

theorem length_of_collect {σ α : Type} {step : EStateM Error σ α} {n : Nat} {s t : σ}
    {xs : List α} (h : collect step n s = .ok xs t) : xs.length = n := by
  induction n generalizing s xs with
  | zero =>
      cases h
      rfl
  | succ n ih =>
      rw [collect_succ] at h
      obtain ⟨x, u, -, hrest⟩ := bind_eq_ok_iff.mp h
      obtain ⟨xs', u', hxs', hpure⟩ := bind_eq_ok_iff.mp hrest
      cases hpure
      exact congrArg (· + 1) (ih hxs')

namespace Cursor

variable {ω α β : Type} {c c' : Cursor} {w w' : ω}

/-! ### Side by side -/

theorem reading_of_ok {step : Step α} {a : α} (h : step c = .ok a c') (w : ω) :
    reading step (c, w) = .ok a (c', w) := by
  rw [reading, h]

variable [Writer ω]

theorem telling_of_ok {e : Event} (h : Writer.step e w = .ok () w') (c : Cursor) :
    telling e (c, w) = .ok () (c, w') := by
  rw [telling, h]

theorem forM_telling_of_ok {es : List Event} (h : Writer.run es w = .ok () w') (c : Cursor) :
    es.forM telling (c, w) = .ok () (c, w') := by
  induction es generalizing w with
  | nil =>
      cases h
      rfl
  | cons e es ih =>
      obtain ⟨u, hstep, hrest⟩ := Writer.run_cons_ok h
      exact (bind_of_ok (telling_of_ok hstep c)).trans (ih hrest)

/-- Side by side, the cursor does what it does in the reading step, and the
writer what it does when it is told the events of what was read. -/
def Moves (both : Both ω Unit) (step : Step α) (events : α → List Event) : Prop :=
  ∀ ⦃c c' : Cursor⦄ ⦃a : α⦄ ⦃w w' : ω⦄, step c = .ok a c' →
    Writer.run (events a) w = .ok () w' → both (c, w) = .ok () (c', w')

namespace Moves

variable {both : Both ω Unit} {step : Step α} {events : α → List Event}

theorem congr {step' : Step α} (h : Moves both step events)
    (hstep : ∀ c, step' c = step c) : Moves both step' events := by
  intro c c' a w w' hread htell
  exact h ((hstep c).symm.trans hread) htell

/-- What is told as it was read, in one piece. -/
theorem tell (step : Step α) (event : α → Event) :
    Moves (ω := ω) (do telling (event (← reading step))) step fun a => [event a] := by
  intro c c' a w w' hread htell
  obtain ⟨u, hstep, hrest⟩ := Writer.run_cons_ok htell
  cases hrest
  exact (bind_of_ok (reading_of_ok hread w)).trans (telling_of_ok hstep c')

theorem tellAll (step : Step α) (events : α → List Event) :
    Moves (ω := ω) (do (events (← reading step)).forM telling) step events := by
  intro c c' a w w' hread htell
  exact (bind_of_ok (reading_of_ok hread w)).trans (forM_telling_of_ok htell c')

theorem map {events : β → List Event} {f : α → β}
    (h : Moves both step fun a => events (f a)) :
    Moves both (do return f (← step)) events := by
  intro c c' b w w' hread htell
  obtain ⟨a, _, hstep, hpure⟩ := bind_eq_ok_iff.mp hread
  cases hpure
  exact h hstep htell

/-- A step that is repeated, and is told each time. -/
theorem times (h : Moves both step events) (n : Nat) :
    Moves (times both n) (collect step n) fun as => as.flatMap events := by
  induction n with
  | zero =>
      intro c c' as w w' hread htell
      cases hread
      cases htell
      rfl
  | succ n ih =>
      intro c c' as w w' hread htell
      rw [collect_succ] at hread
      obtain ⟨a, c₁, hstep, hrest⟩ := bind_eq_ok_iff.mp hread
      obtain ⟨as', c₂, hcollect, hpure⟩ := bind_eq_ok_iff.mp hrest
      cases hpure
      obtain ⟨u, hfirst, hothers⟩ := Writer.run_append_ok htell
      exact (bind_of_ok (h hstep hfirst)).trans (ih hcollect hothers)

/-- A container: its scope is opened and its length told, then its content is
moved, and then its end is told and the scope closed. -/
theorem scope (kind : Container) (count : Nat → Nat) (first : Nat → Event) (last : Event)
    (h : Moves both step events) :
    Moves (ω := ω) (do
        let key ← reading (beginScope kind)
        let n ← reading elemLeft
        telling (first (count n))
        MsgPack.times both (count n)
        telling last
        reading (endScope kind key))
      (do
        let key ← beginScope kind
        let as ← MsgPack.collect step (count (← elemLeft))
        endScope kind key
        return as)
      fun as => first as.length :: (as.flatMap events ++ [last]) := by
  intro c c' as w w' hread htell
  obtain ⟨key, c₁, hbegin, hread⟩ := bind_eq_ok_iff.mp hread
  obtain ⟨n, c₂, hleft, hread⟩ := bind_eq_ok_iff.mp hread
  obtain ⟨as', c₃, hcollect, hread⟩ := bind_eq_ok_iff.mp hread
  obtain ⟨_, c₄, hend, hpure⟩ := bind_eq_ok_iff.mp hread
  cases hpure
  obtain ⟨u, hfirst, htell⟩ := Writer.run_cons_ok htell
  obtain ⟨u', hcontent, htell⟩ := Writer.run_append_ok htell
  obtain ⟨u'', hlast, hdone⟩ := Writer.run_cons_ok htell
  cases hdone
  rw [length_of_collect hcollect] at hfirst
  refine (bind_of_ok (reading_of_ok hbegin w)).trans ?_
  refine (bind_of_ok (reading_of_ok hleft w)).trans ?_
  refine (bind_of_ok (telling_of_ok hfirst c₂)).trans ?_
  refine (bind_of_ok (h.times _ hcollect hcontent)).trans ?_
  refine (bind_of_ok (telling_of_ok hlast c₃)).trans ?_
  exact reading_of_ok hend _

end Moves

/-! ### Values -/

theorem elemEvents_eq (vs : List OwnedValue) :
    Value.elemEvents vs = vs.flatMap Value.events := by
  induction vs with
  | nil => rfl
  | cons v vs ih => rw [Value.elemEvents, ih, List.flatMap_cons]

/-- The events of an entry. -/
def entryEvents (e : OwnedValue × OwnedValue) : List Event :=
  .key :: (e.1.events ++ e.2.events)

theorem entryEvents_eq (es : List (OwnedValue × OwnedValue)) :
    Value.entryEvents es = es.flatMap entryEvents := by
  induction es with
  | nil => rfl
  | cons e es ih =>
      obtain ⟨k, v⟩ := e
      rw [Value.entryEvents, ih, List.flatMap_cons]
      rfl

section Values

variable {inside : Both ω Unit} {step : Step OwnedValue}

theorem moves_entry (h : Moves inside step Value.events) :
    Moves (do reading announceKey; telling .key; inside; inside)
      (do announceKey; return (← step, ← step)) entryEvents := by
  intro c c' e w w' hread htell
  obtain ⟨_, c₁, hannounce, hread⟩ := bind_eq_ok_iff.mp hread
  obtain ⟨k, c₂, hkey, hread⟩ := bind_eq_ok_iff.mp hread
  obtain ⟨v, c₃, hval, hpure⟩ := bind_eq_ok_iff.mp hread
  cases hpure
  obtain ⟨u, hfirst, htell⟩ := Writer.run_cons_ok htell
  obtain ⟨u', hkeys, hvals⟩ := Writer.run_append_ok htell
  refine (bind_of_ok (reading_of_ok hannounce w)).trans ?_
  refine (bind_of_ok (telling_of_ok hfirst c₁)).trans ?_
  exact (bind_of_ok (h hkey hkeys)).trans (h hval hvals)

theorem moves_array (h : Moves inside step Value.events) :
    Moves (do
        let key ← reading (beginScope .array)
        let n ← reading elemLeft
        telling (.beginArray (some n))
        times inside n
        telling .endArray
        reading (endScope .array key))
      (do return Value.array (← elements step)) Value.events := by
  refine Moves.map ?_
  have hscope := Moves.scope .array id (fun n => .beginArray (some n)) .endArray h
  simp only [Value.events, elemEvents_eq]
  exact hscope

theorem moves_map (h : Moves inside step Value.events) :
    Moves (do
        let key ← reading (beginScope .map)
        let n ← reading elemLeft
        telling (.beginMap (some (n / 2)))
        times (do reading announceKey; telling .key; inside; inside) (n / 2)
        telling .endMap
        reading (endScope .map key))
      (do return Value.map (← entries step step)) Value.events := by
  refine Moves.map ?_
  have hscope := Moves.scope .map (· / 2) (fun n => .beginMap (some n)) .endMap (moves_entry h)
  simp only [Value.events, entryEvents_eq]
  exact hscope

theorem moves_valueWith (h : Moves inside step Value.events) :
    Moves (transferWith inside) (valueWith .owned step) Value.events := by
  intro c c' v w w' hread htell
  obtain ⟨entity, c₁, hlook, hread⟩ := bind_eq_ok_iff.mp hread
  refine (bind_of_ok (reading_of_ok hlook w)).trans ?_
  cases entity with
  | null => exact (Moves.tell (leaf Get.nil) fun _ => .nil).map (f := fun _ => .nil) hread htell
  | boolean => exact (Moves.tell (leaf Get.bool) .bool).map (f := .bool) hread htell
  | integer => exact (Moves.tell (leaf Get.anyNumber) .number).map (f := .number) hread htell
  | floatingPoint =>
      exact (Moves.tell (leaf Get.anyNumber) .number).map (f := .number) hread htell
  | string => exact (Moves.tell (text .owned) .text).map (f := .string) hread htell
  | binary => exact (Moves.tellAll (binary .owned) Event.binary).map (f := .binary) hread htell
  | extension =>
      have htold := Moves.tell (ω := ω) (extension .owned) .extension
      exact htold.map (f := fun e : Extension => .extension e.type e.data) hread htell
  | array => exact moves_array h hread htell
  | map => exact moves_map h hread htell

theorem moves_valueWithin (levels : Nat) :
    Moves (ω := ω) (transferWithin levels) (valueWithin .owned levels) Value.events := by
  induction levels with
  | zero =>
      refine moves_valueWith ?_
      intro c c' v w w' hread
      cases hread
  | succ levels ih => exact moves_valueWith ih

/-- Moving a value is reading it and telling it. -/
theorem moves_value : Moves (ω := ω) transfer (value .owned) Value.events := by
  intro c c' v w w' hread htell
  obtain ⟨levels, c₁, hlevels, hread⟩ := bind_eq_ok_iff.mp hread
  exact (bind_of_ok (reading_of_ok hlevels w)).trans (moves_valueWithin levels hread htell)

end Values

end Cursor

/-! ### Writers that take every value -/

namespace Builder

/-- A fresh builder is told a value and has it. -/
theorem run_events (v : OwnedValue) :
    Writer.run v.events Builder.empty = .ok () { Builder.empty with result := some v } := by
  have htells := Value.tells_tree v
  have hpolicy : EncodePolicy.exact ≠ .aggressive := by decide
  have hall : assembleAll v.events Builder.empty =
      .ok () { Builder.empty with result := some v } := by
    rw [htells.assemble hpolicy rfl, Value.value_tree hpolicy]
    rfl
  have htell : Scopes.tell v.events [] = .ok () [] := htells.tell rfl
  exact run_of_assemble htells.unrefused htell hall

end Builder

namespace Cursor

/-- A value is copied faithfully. Whatever input is read as a value from its
start, the value is moved from a fresh cursor into a fresh serializer, which
then holds what the value is written as, and into a fresh builder, which then
is ready and gives the value out. Either way the cursor stands behind the value,
with no scope open. -/
theorem transfer_copies_value {storage : Storage} {kind : SourceKind} {input : Bytes}
    {v : OwnedValue} {s : Source}
    (h : Get.run (storage.value Value.defaultDepth) kind input = .ok v s)
    (reading : DecodePolicy) (strict : Bool) :
    let fresh : Cursor := { ofBytes reading kind input with strict }
    (∀ policy, ∃ n out c w,
      v.put policy { kind := .buffer } = .ok n out ∧
        transfer (fresh, Serializer.ofSink policy .buffer) = .ok () (c, w) ∧
        w.sink = out ∧ w.written = n ∧ w.scopes = [] ∧ c.source = s ∧ c.frames = []) ∧
    ∃ c b,
      transfer (fresh, Builder.empty) = .ok () (c, b) ∧ b.ready = true ∧
        Builder.release b = .ok v .empty ∧ c.source = s ∧ c.frames = [] := by
  intro fresh
  have howned := Storage.get_of_value h
  obtain ⟨bs, -, -, hderives, -⟩ := (accepts_get _).sound howned
  obtain ⟨lastId, hread⟩ : ∃ lastId,
      value .owned fresh = .ok v { fresh with source := s, frames := [], lastId } := by
    have halike := alike_storage_value .owned (c := fresh) trivial
    cases halike with
    | error hrun hget he => cases hget.symm.trans howned
    | ok v' s' id hrun hget =>
        cases hget.symm.trans howned
        exact ⟨id, hrun⟩
  have hshort := (Value.fits_of_derives hderives).short
  refine ⟨fun policy => ?_, _, _, moves_value hread (Builder.run_events v), rfl, rfl, rfl, rfl⟩
  have hwrites : Put.Writes (v.put policy) (v.tree.bytes policy) := Value.writes_put v hshort
  have hput := hwrites.buffer (s := { kind := .buffer }) rfl
  have htold := moves_value hread (Serializer.run_of_tree policy (Value.tells_tree v) hshort)
  exact ⟨_, _, _, _, hput, htold, rfl, Nat.zero_add _, rfl, rfl, rfl⟩

/-- A map with an array for a key and a binary for a value, before a nil, is
moved into a builder. -/
theorem transfer_copies_value_map :
    let v : OwnedValue := .map [(.array [.number (.int ⟨5, by decide⟩)], .binary [0xff])]
    let fresh := ofBytes .widening .memory [0x81, 0x91, 0x05, 0xc4, 0x01, 0xff, 0xc0]
    ∃ c b, transfer (fresh, Builder.empty) = .ok () (c, b) ∧ b.ready = true ∧
      Builder.release b = .ok v .empty ∧ c.source = ⟨.memory, [0xc0], 6⟩ ∧ c.frames = [] := by
  intro v fresh
  have hget : Get.run (Storage.owned.value Value.defaultDepth) .memory
      [0x81, 0x91, 0x05, 0xc4, 0x01, 0xff, 0xc0] = .ok v ⟨.memory, [0xc0], 6⟩ := rfl
  exact (transfer_copies_value hget .widening false).2

end Cursor

end MsgPack
