import MsgPack.Proofs.Schema.Leaves

/-!
What steps of a cursor are built of. Whatever its schema is, an object is read
by a few calls: scopes are opened and closed, keys announced, elements passed
over, single leaves read, and what comes next looked at. What the calls have in
common, the reading of every object has, by induction on how it is built.
-/

namespace MsgPack

/-- The readers of single leaves. Where streams are admitted nothing is
borrowed. -/
inductive LeafReader (streams : Prop) : {α : Type} → Get α → Prop
  | nil : LeafReader streams Get.nil
  | bool : LeafReader streams Get.bool
  | number : LeafReader streams Get.anyNumber
  | int (policy : DecodePolicy) (t : IntType) : LeafReader streams (policy.int t)
  | float (policy : DecodePolicy) (p : Precision) : LeafReader streams (policy.float p)
  | text {storage : Storage} (h : streams → storage = .owned) :
      LeafReader streams (do storage.take (← Get.text))
  | binary {storage : Storage} (h : streams → storage = .owned) :
      LeafReader streams (do storage.take (← Get.binary))
  | extension {storage : Storage} (h : streams → storage = .owned) :
      LeafReader streams (do
        let (type, p) ← Get.extension
        return (⟨type, ← storage.take p⟩ : Extension))

namespace Cursor

variable {streams : Prop} {α β : Type} {m n least : Nat}

/-- Steps that are built of calls and consume at least `least` bytes when they
succeed. A look ahead comes before something that is consumed. -/
inductive Built (streams : Prop) : (least : Nat) → {α : Type} → Step α → Prop
  | pure {α : Type} (a : α) : Built streams 0 (pure a)
  | throw {α : Type} {least : Nat} (e : Error) : Built streams least (throw e : Step α)
  | bind {α β : Type} {m n : Nat} {step : Step α} {f : α → Step β} (h : Built streams m step)
      (hf : ∀ a, Built streams n (f a)) : Built streams (m + n) (step >>= f)
  | mono {α : Type} {m n : Nat} {step : Step α} (h : Built streams n step) (hle : m ≤ n) :
      Built streams m step
  /-- What a step does may depend on the cursor, but for its source. -/
  | consult {α : Type} {n : Nat} {f : Cursor → Step α}
      (hf : ∀ (c : Cursor) (s : Source), f { c with source := s } = f c)
      (h : ∀ c, Built streams n (f c)) : Built streams n (get >>= f)
  | look {α : Type} {n : Nat} {f : EntityType → Step α} (hf : ∀ e, Built streams (n + 1) (f e)) :
      Built streams (n + 1) (typeNext >>= f)
  | enter (kind : Container) : Built streams 1 (beginScope kind)
  | leave (kind : Container) (key : Int) : Built streams 0 (endScope kind key)
  | key : Built streams 0 announceKey
  | skip : Built streams 1 skip
  | leaf {α : Type} {g : Get α} (h : LeafReader streams g) : Built streams 1 (leaf g)

namespace Built

variable {step : Step α}

theorem andThen {f : α → Step β} (h : Built streams n step) (hf : ∀ a, Built streams 0 (f a)) :
    Built streams n (step >>= f) := h.bind hf

/-- What consumes nothing that has to be counted, before something that does. -/
theorem before {f : α → Step β} (h : Built streams 0 step) (hf : ∀ a, Built streams n (f a)) :
    Built streams n (step >>= f) := Nat.zero_add n ▸ h.bind hf

theorem map (h : Built streams n step) (f : α → β) : Built streams n (do return f (← step)) :=
  h.andThen fun a => .pure (f a)

theorem weak (h : Built streams n step) : Built streams 0 step := h.mono (Nat.zero_le n)

theorem collect (h : Built streams 0 step) (n : Nat) : Built streams 0 (collect step n) := by
  induction n with
  | zero => exact .pure []
  | succ n ih =>
      rw [collect_succ]
      exact h.bind fun a => ih.map (a :: ·)

theorem ofExcept (x : Except Error α) : Built streams 0 (Get.ofExcept x) := by
  cases x with
  | ok a => exact .pure a
  | error e => exact .throw e

theorem checkArity (expected found : Nat) : Built streams 0 (checkArity expected found) := by
  rw [MsgPack.checkArity]
  split
  · exact .pure ()
  · exact .throw _

theorem elemLeft : Built streams 0 elemLeft := by
  have hinnermost : Built streams 0 innermost := by
    refine .consult (fun _ _ => rfl) fun c => ?_
    split
    · exact .throw _
    · exact .pure _
  exact hinnermost.map Frame.remaining

theorem levelsLeft : Built streams 0 levelsLeft :=
  .consult (fun _ _ => rfl) fun _ => .consult (fun _ _ => rfl) fun _ => .pure _

theorem tooDeep : Built streams least (tooDeep : Step α) :=
  .consult (fun _ _ => rfl) fun _ => .throw _

section Content

variable {storage : Storage} (h : streams → storage = .owned)

include h

theorem text : Built streams 1 (text storage) := .leaf (.text h)

theorem binary : Built streams 1 (binary storage) := .leaf (.binary h)

theorem extension : Built streams 1 (extension storage) := .leaf (.extension h)

end Content

theorem name : Built streams 1 (Cursor.text .owned) := text fun _ => rfl

theorem ownExtension : Built streams 1 (Cursor.extension .owned) := extension fun _ => rfl

/-! ### Containers -/

theorem elements (h : Built streams 0 step) : Built streams 1 (elements step) :=
  (enter .array).andThen fun key => elemLeft.bind fun n => (h.collect n).bind fun xs =>
    (leave .array key).map fun _ => xs

theorem entries {key : Step α} {val : Step β} (hkey : Built streams 0 key)
    (hval : Built streams 0 val) : Built streams 1 (entries key val) := by
  have hentry : Built streams 0 (do announceKey; return (← key, ← val)) :=
    Built.key.bind fun _ => hkey.bind fun a => hval.map (a, ·)
  exact (enter .map).andThen fun scope => elemLeft.bind fun n => (hentry.collect (n / 2)).bind
    fun es => (leave .map scope).map fun _ => es

theorem valueWith {storage : Storage} (h : streams → storage = .owned) {inside : Step OwnedValue}
    (hinside : Built streams 0 inside) : Built streams 1 (valueWith storage inside) := by
  refine look fun e => ?_
  cases e with
  | null => exact (leaf .nil).andThen fun _ => .pure _
  | boolean => exact (leaf .bool).map Value.bool
  | integer => exact (leaf .number).map Value.number
  | floatingPoint => exact (leaf .number).map Value.number
  | string => exact (text h).map Value.string
  | binary => exact (binary h).map Value.binary
  | extension => exact (extension h).map fun e => Value.extension e.type e.data
  | array => exact (elements hinside).map Value.array
  | map => exact (entries hinside hinside).map Value.map

theorem value {storage : Storage} (h : streams → storage = .owned) :
    Built streams 1 (value storage) := by
  have hwithin : ∀ levels, Built streams 1 (valueWithin storage levels) := by
    intro levels
    induction levels with
    | zero => exact valueWith h tooDeep
    | succ levels ih => exact valueWith h ih.weak
  exact levelsLeft.bind hwithin

theorem beginVariant : Built streams 1 beginVariant := by
  refine look fun e => ?_
  split
  · exact name.map (·, VariantShape.name)
  · refine (enter .map).andThen fun key => elemLeft.before fun n => ?_
    have hname : Built streams 0 (do
        announceKey
        return (← Cursor.text .owned, VariantShape.entry key)) :=
      Built.key.bind fun _ => name.weak.map (·, VariantShape.entry key)
    split
    · exact (throw _).bind fun _ => hname
    · exact hname
  · refine (enter .array).andThen fun key => elemLeft.before fun n => ?_
    have hname : Built streams 0 (do return (← Cursor.text .owned, VariantShape.pair key)) :=
      name.weak.map (·, VariantShape.pair key)
    split
    · exact (throw _).bind fun _ => hname
    · exact hname
  · exact .throw _

theorem endVariant (shape : VariantShape) : Built streams 0 (endVariant shape) := by
  cases shape with
  | name => exact .pure ()
  | entry key => exact leave .map key
  | pair key => exact leave .array key

/-! ### Shapes of objects -/

theorem restoreFields {field? : α → Bytes → Option (Step α)}
    (hfield : ∀ x name step, field? x name = some step → Built streams 0 step) (n : Nat) (x : α) :
    Built streams 0 (restoreFields field? n x) := by
  induction n generalizing x with
  | zero => exact .pure x
  | succ n ih =>
      refine Built.key.before fun _ => name.weak.before fun bs => ?_
      split
      · next step hstep => exact (hfield x bs step hstep).bind fun x' => ih x'
      · exact Built.skip.weak.bind fun _ => ih x

theorem restoreTuple {n : Nat} (h : Built streams 0 step) :
    Built streams 1 (restoreTuple n step) :=
  (enter .array).andThen fun key => elemLeft.bind fun found =>
    (checkArity n found).bind fun _ => h.bind fun a => (leave .array key).map fun _ => a

theorem restoreStruct {n : Nat} {field? : α → Bytes → Option (Step α)} {x : α}
    (h : Built streams 0 step)
    (hfield : ∀ x name step, field? x name = some step → Built streams 0 step) :
    Built streams 1 (restoreStruct n step field? x) := by
  refine look fun e => ?_
  split
  · exact (enter .map).andThen fun key => elemLeft.bind fun found =>
      (restoreFields hfield (found / 2) x).bind fun a => (leave .map key).map fun _ => a
  · exact restoreTuple h
  · exact .throw _

theorem restoreVariant {alternative? : Bytes → Bool → Option (Step α)}
    (halt : ∀ name hasPayload step, alternative? name hasPayload = some step →
      Built streams 0 step) :
    Built streams 1 (restoreVariant alternative?) := by
  refine beginVariant.andThen fun begun => ?_
  obtain ⟨name, shape⟩ := begun
  dsimp only
  split
  · next step hstep =>
      exact (halt _ _ step hstep).bind fun a => (endVariant shape).map fun _ => a
  · exact .throw _

end Built

end Cursor

/-! ### Objects -/

section Objects

open Cursor (Built Step)

variable {streams : Prop}

theorem Content.built_restore (c : Content) (hc : streams → c.owning)
    (hitem : ∀ s, c = .item s → (streams → s.owning) → Built streams 1 (s.restore s.fresh))
    (name : Bytes) (hasPayload : Bool) : Built streams 0 (c.restore name hasPayload) := by
  cases c with
  | unit => cases hasPayload <;> first | exact .pure () | exact .throw _
  | item s => cases hasPayload <;> first | exact (hitem s rfl hc).weak | exact .throw _

mutual

/-- The reading of an object is built of calls. -/
theorem Schema.built_restore (s : Schema) (hs : streams → s.owning) (x : s.Val) :
    Built streams 1 (s.restore x) := by
  cases s with
  | nil => exact .leaf .nil
  | bool => exact .leaf .bool
  | int t initial => exact .consult (fun _ _ => rfl) fun c => .leaf (.int c.policy t)
  | carried t =>
      rw [Schema.restore, restoreCarried]
      refine .consult (fun _ _ => rfl) fun c => ?_
      refine (Built.leaf (.int c.policy t.widest)).andThen fun wide => ?_
      split
      · exact .pure _
      · exact .throw _
  | float p => exact .consult (fun _ _ => rfl) fun c => .leaf (.float c.policy p)
  | number => exact .leaf .number
  | char =>
      refine Built.name.andThen fun bs => ?_
      split
      · exact .pure _
      · exact .throw _
  | text storage initial => exact .text fun h => of_decide_eq_true (hs h)
  | binary storage => exact .binary fun h => of_decide_eq_true (hs h)
  | extension storage => exact .extension fun h => of_decide_eq_true (hs h)
  | fixedExtension capacity => exact Built.ownExtension.andThen fun e => .ofExcept _
  | timestamp l => exact Built.ownExtension.andThen fun e => .ofExcept _
  | instant u => exact Built.ownExtension.andThen fun e => .ofExcept _
  | value storage => exact .value fun h => of_decide_eq_true (hs h)
  | list s => exact .elements (s.built_restore hs s.fresh).weak
  | map k v =>
      have hs := fun h => Bool.and_eq_true_iff.mp (hs h)
      have hkey := k.built_restore (fun h => (hs h).1) k.fresh
      have hval := v.built_restore (fun h => (hs h).2) v.fresh
      exact (Built.entries hkey.weak hval.weak).map (mapOfEntries k.compare)
  | option s =>
      refine .look fun e => ?_
      cases e with
      | null => exact (Built.leaf .nil).andThen fun _ => .pure none
      | _ => exact (s.built_restore hs (Option.getD x s.fresh)).map some
  | tuple r => exact .restoreTuple (r.built_restore hs x)
  | struct r => exact .restoreStruct (r.built_restore hs x) fun _ _ _ => r.built_restoreField hs
  | variant a => exact .restoreVariant fun _ _ _ => a.built_restore hs

theorem Row.built_restore (r : Row) (hr : streams → r.owning) (x : r.Val) :
    Built streams 0 (r.restore x) := by
  cases r with
  | nil => exact .pure ()
  | cons name s rest =>
      have hr := fun h => Bool.and_eq_true_iff.mp (hr h)
      exact (s.built_restore (fun h => (hr h).1) x.1).weak.bind fun y =>
        (rest.built_restore (fun h => (hr h).2) x.2).map fun ys => (y, ys)

theorem Row.built_restoreField (r : Row) (hr : streams → r.owning) {x : r.Val} {name : Bytes}
    {field : Step r.Val} (hfield : r.restoreField? x name = some field) :
    Built streams 0 field := by
  cases r with
  | nil => cases hfield
  | cons own s rest =>
      obtain ⟨x, xs⟩ := x
      have hr := fun h => Bool.and_eq_true_iff.mp (hr h)
      rw [Row.restoreField?] at hfield
      split at hfield
      · obtain rfl := Option.some.inj hfield
        exact (s.built_restore (fun h => (hr h).1) x).weak.map (·, xs)
      · obtain ⟨step, hstep, rfl⟩ := Option.map_eq_some_iff.mp hfield
        exact (rest.built_restoreField (fun h => (hr h).2) hstep).map (x, ·)

theorem Alternatives.built_restore (a : Alternatives) (ha : streams → a.owning) {name : Bytes}
    {hasPayload : Bool} {step : Step a.Val} (hstep : a.restore? name hasPayload = some step) :
    Built streams 0 step := by
  cases a with
  | last own c =>
      obtain ⟨-, hstep⟩ := Option.ite_none_right_eq_some.mp hstep
      obtain rfl := Option.some.inj hstep
      exact c.built_restore ha (fun s _ hs => s.built_restore hs s.fresh) name hasPayload
  | cons own c rest =>
      have ha := fun h => Bool.and_eq_true_iff.mp (ha h)
      rw [Alternatives.restore?] at hstep
      split at hstep
      · obtain rfl := Option.some.inj hstep
        exact (c.built_restore (fun h => (ha h).1) (fun s _ hs => s.built_restore hs s.fresh) name
          hasPayload).map Sum.inl
      · obtain ⟨inner, hinner, rfl⟩ := Option.map_eq_some_iff.mp hstep
        exact (rest.built_restore (fun h => (ha h).2) hinner).map Sum.inr

end

end Objects

end MsgPack
