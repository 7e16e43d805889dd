import MsgPack.Proofs.Cursor.Relocating
import MsgPack.Proofs.Schema.Shapes

/-!
Objects are read in one place as they are in another. An object that is read by
itself is read with the same outcome in any container that leaves it the levels
that it needs, whatever comes behind it.
-/

namespace MsgPack

open Cursor (Step Carries Portable inScope)

variable {tail : Bytes} {α : Type}

/-! ### Shapes of objects -/

theorem carries_checkArity {fs fs' : List Frame} (expected found : Nat) :
    Carries tail (checkArity expected found) (checkArity expected found) fs fs fs' fs' := by
  rw [checkArity]
  split
  · exact .pure ()
  · exact .throw _

/-- The items of a tuple, and behind them the end of its array. -/
theorem portable_restoreTuple {n : Nat} {elems : Step α}
    (h : ∀ key key' outer outer', Carries tail elems elems
      (.opened .array key n :: outer) (.opened .array key 0 :: outer)
      (.opened .array key' n :: outer') (.opened .array key' 0 :: outer')) :
    Portable tail (restoreTuple n elems) (restoreTuple n elems) := by
  refine fun fs fs' hfs hfs' => .scope .array hfs hfs' fun key key' found => .elemLeft ?_
  by_cases hfound : found = n
  · rw [hfound]
    exact (carries_checkArity n n).bind fun _ => .closing (h key key' _ _)
  · have harity : (checkArity n found : Step Unit) = throw _ := if_neg hfound
    rw [Cursor.places, harity]
    exact .throw _

theorem carries_restoreFields {field? : α → Bytes → Option (Step α)}
    (hfield : ∀ x name field, field? x name = some field → Portable tail field field)
    (key key' : Nat) (outer outer' : List Frame) (n : Nat) (x : α) :
    Carries tail (restoreFields field? n x) (restoreFields field? n x)
      (.opened .map key (2 * n) :: outer) (.opened .map key 0 :: outer)
      (.opened .map key' (2 * n) :: outer') (.opened .map key' 0 :: outer') := by
  induction n generalizing x with
  | zero => exact .pure x
  | succ n ih =>
      rw [restoreFields]
      refine (Carries.announceKey key key' n).bind fun _ =>
        ((Portable.text .owned).asKey key key' n).bind fun name => ?_
      cases hname : field? x name with
      | some field => exact ((hfield x name field hname).asValue key key' n).bind ih
      | none =>
          exact (Carries.skipValue key key' n).bind fun _ => ih x

theorem portable_restoreStruct {n : Nat} {elems : Step α} {field? : α → Bytes → Option (Step α)}
    (helems : ∀ key key' outer outer', Carries tail elems elems
      (.opened .array key n :: outer) (.opened .array key 0 :: outer)
      (.opened .array key' n :: outer') (.opened .array key' 0 :: outer'))
    (hfield : ∀ x name field, field? x name = some field → Portable tail field field) (x : α) :
    Portable tail (restoreStruct n elems field? x) (restoreStruct n elems field? x) := by
  refine .typeNext fun e => ?_
  split
  · refine fun fs fs' hfs hfs' => .scope .map hfs hfs' fun key key' entries => .elemLeft ?_
    rw [Cursor.places, Nat.mul_div_cancel_left entries Nat.two_pos]
    exact .closing (carries_restoreFields hfield key key' _ _ entries x)
  · exact portable_restoreTuple helems
  · exact .throw _

theorem portable_payloadOf {alternative? : Bytes → Bool → Option (Step α)}
    (h : ∀ name step, alternative? name true = some step → Portable tail step step)
    (name : Bytes) : Portable tail (payloadOf alternative? name) (payloadOf alternative? name) := by
  rw [payloadOf]
  cases halt : alternative? name true with
  | some step => exact h name step halt
  | none => exact fun _ _ _ _ => .throw _

/-- An entry or a pair: its name and its payload are all that is in it. -/
theorem carries_unionIn {alternative? : Bytes → Bool → Option (Step α)}
    (h : ∀ name step, alternative? name true = some step → Portable tail step step)
    (kind : Container) (key key' : Nat) (outer outer' : List Frame) (n : Nat) :
    Carries tail (unionIn alternative? kind) (unionIn alternative? kind)
      (.opened kind key (Cursor.places kind n) :: outer) (.opened kind key 0 :: outer)
      (.opened kind key' (Cursor.places kind n) :: outer') (.opened kind key' 0 :: outer') := by
  refine .elemLeft ?_
  by_cases htwo : Cursor.places kind n = 2
  · rw [if_neg (not_not_intro htwo), htwo]
    cases kind with
    | map =>
        exact (Carries.announceKey key key' 0).bind fun _ =>
          ((Portable.text .owned).asKey key key' 0).bind fun name =>
            (portable_payloadOf h name).asValue key key' 0
    | array =>
        exact ((Portable.text .owned).inArray key key' 1).bind fun name =>
          (portable_payloadOf h name).inArray key key' 0
  · rw [if_pos htwo]
    exact .throw _

/-- What carries a payload may be an entry or a pair, with the payload in its
scope; a name that stands alone is all that is read. -/
theorem portable_restoreVariant {alternative? : Bytes → Bool → Option (Step α)}
    (hpayload : ∀ name step, alternative? name true = some step → Portable tail step step)
    (hname : ∀ name step, alternative? name false = some step →
      ∀ fs fs', Carries tail step step fs fs fs' fs') :
    Portable tail (restoreVariant alternative?) (restoreVariant alternative?) := by
  have hscope : ∀ kind, Portable tail (inScope kind (unionIn alternative? kind))
      (inScope kind (unionIn alternative? kind)) := fun kind fs fs' hfs hfs' =>
    .scope kind hfs hfs' fun key key' n => .closing (carries_unionIn hpayload kind key key' _ _ n)
  rw [restoreVariant_eq]
  refine .typeNext fun e => ?_
  cases e with
  | string =>
      refine fun fs fs' hfs hfs' => ((Portable.text .owned) fs fs' hfs hfs').bind fun name => ?_
      rw [nameOf]
      cases halt : alternative? name false with
      | some step => exact hname name step halt _ _
      | none => exact .throw _
  | map => exact hscope .map
  | array => exact hscope .array
  | _ => exact fun _ _ _ _ => .throw _

/-! ### Schemas -/

theorem Content.carries_restore (c : Content) (name : Bytes) (fs fs' : List Frame) :
    Carries tail (c.restore name false) (c.restore name false) fs fs fs' fs' := by
  cases c with
  | unit => exact .pure ()
  | item s => exact .throw _

theorem Alternatives.carries_restore (a : Alternatives) {name : Bytes} {step : Step a.Val}
    (h : a.restore? name false = some step) (fs fs' : List Frame) :
    Carries tail step step fs fs fs' fs' := by
  cases a with
  | last own c =>
      obtain ⟨-, h⟩ := Option.ite_none_right_eq_some.mp h
      obtain rfl := Option.some.inj h
      exact c.carries_restore name fs fs'
  | cons own c rest =>
      rw [Alternatives.restore?] at h
      split at h
      · obtain rfl := Option.some.inj h
        exact (c.carries_restore name fs fs').map Sum.inl
      · obtain ⟨step, hstep, rfl⟩ := Option.map_eq_some_iff.mp h
        exact (rest.carries_restore hstep fs fs').map Sum.inr

mutual

/-- Every object is read alike in any two places. -/
theorem Schema.portable_restore (s : Schema) (x : s.Val) :
    Portable tail (s.restore x) (s.restore x) := by
  cases s with
  | nil => exact .leaf LeafReader.nil.extends
  | bool => exact .leaf LeafReader.bool.extends
  | int t initial =>
      exact .byPolicy (f := fun policy => Cursor.leaf (policy.int t))
        (fun policy => .leaf (LeafReader.int policy t).extends) fun _ => rfl
  | carried t =>
      exact .byPolicy (fun policy => .checked (.leaf (LeafReader.int policy t.widest).extends))
        (restoreCarried_apply t)
  | float p =>
      exact .byPolicy (f := fun policy => Cursor.leaf (policy.float p))
        (fun policy => .leaf (LeafReader.float policy p).extends) fun _ => rfl
  | number => exact .leaf LeafReader.number.extends
  | char =>
      rw [Schema.restore, restoreChar_eq]
      exact .checked (.text .owned)
  | text storage initial => exact .text storage
  | binary storage => exact .binary storage
  | extension storage => exact .extension storage
  | fixedExtension capacity => exact .checked (.extension .owned)
  | timestamp l => exact .checked (.extension .owned)
  | instant u => exact .checked (.extension .owned)
  | value storage => exact .value storage
  | list s => exact .elements (s.portable_restore s.fresh)
  | map k v =>
      exact (Portable.entries (k.portable_restore k.fresh) (v.portable_restore v.fresh)).map
        (mapOfEntries k.compare)
  | option s =>
      refine .typeNext fun e => ?_
      cases e with
      | null => exact (Portable.leaf LeafReader.nil.extends).map fun _ => none
      | _ => exact (s.portable_restore (Option.getD x s.fresh)).map some
  | tuple r => exact portable_restoreTuple fun key key' _ _ => r.carries_restore x key key'
  | struct r =>
      exact portable_restoreStruct (fun key key' _ _ => r.carries_restore x key key')
        (fun _ _ _ => r.portable_restoreField) x
  | variant a =>
      exact portable_restoreVariant (fun _ _ => a.portable_restore) fun _ _ => a.carries_restore

/-- The items of a tuple are read from as many elements of an array. -/
theorem Row.carries_restore (r : Row) (x : r.Val) (key key' : Nat) {outer outer' : List Frame} :
    Carries tail (r.restore x) (r.restore x)
      (.opened .array key r.length :: outer) (.opened .array key 0 :: outer)
      (.opened .array key' r.length :: outer') (.opened .array key' 0 :: outer') := by
  cases r with
  | nil => exact .pure ()
  | cons name s rest =>
      exact ((s.portable_restore x.1).inArray key key' rest.length).bind fun y =>
        (rest.carries_restore x.2 key key').map fun ys => (y, ys)

theorem Row.portable_restoreField (r : Row) {x : r.Val} {name : Bytes} {field : Step r.Val}
    (h : r.restoreField? x name = some field) : Portable tail field field := by
  cases r with
  | nil => cases h
  | cons own s rest =>
      obtain ⟨x, xs⟩ := x
      rw [Row.restoreField?] at h
      split at h
      · obtain rfl := Option.some.inj h
        exact (s.portable_restore x).map (·, xs)
      · obtain ⟨step, hstep, rfl⟩ := Option.map_eq_some_iff.mp h
        exact (rest.portable_restoreField hstep).map (x, ·)

theorem Alternatives.portable_restore (a : Alternatives) {name : Bytes} {step : Step a.Val}
    (h : a.restore? name true = some step) : Portable tail step step := by
  cases a with
  | last own c =>
      obtain ⟨-, h⟩ := Option.ite_none_right_eq_some.mp h
      obtain rfl := Option.some.inj h
      exact c.portable_restore name
  | cons own c rest =>
      rw [Alternatives.restore?] at h
      split at h
      · obtain rfl := Option.some.inj h
        exact (c.portable_restore name).map Sum.inl
      · obtain ⟨step, hstep, rfl⟩ := Option.map_eq_some_iff.mp h
        exact (rest.portable_restore hstep).map Sum.inr

theorem Content.portable_restore (c : Content) (name : Bytes) :
    Portable tail (c.restore name true) (c.restore name true) := by
  cases c with
  | unit => exact .throw _
  | item s => exact s.portable_restore s.fresh

end

end MsgPack
