import MsgPack.Proofs.Cursor.Strictness
import MsgPack.Proofs.Schema.Fields

/-!
Objects are read to the end of every scope that they open. Lists and maps read
as many elements as there are, tuples and structs refuse an array of another
length, unions whatever has not one name and one payload, and what a struct has
no field for is passed over. So it makes no difference to any object whether
scopes are closed strictly.
-/

namespace MsgPack

open Cursor (Step Heedless HeedlessAt Carries Portable endStrict inScope)
open Grammar (Derives)

variable {α : Type}

/-! ### Shapes of objects -/

theorem heedless_checkArity (expected found : Nat) :
    Heedless (checkArity expected found : Step Unit) := by
  rw [checkArity]
  split
  · exact .pure ()
  · exact .throw _

/-- The items of a tuple are all the elements of its array. -/
theorem heedless_restoreTuple {n : Nat} {elems : Step α} (h : Heedless elems)
    (hends : ∀ key outer, Carries [] elems elems
      (.opened .array key n :: outer) (.opened .array key 0 :: outer)
      (.opened .array key n :: outer) (.opened .array key 0 :: outer)) :
    Heedless (restoreTuple n elems) := by
  refine .scope .array fun key found outer => .elemLeft ?_
  by_cases hfound : found = n
  · subst hfound
    refine (heedless_checkArity found found _).bind fun c a t hc harity => ?_
    have hcheck : (checkArity found found : Step Unit) = pure () := if_pos rfl
    rw [hcheck] at harity
    cases harity
    rw [hc]
    exact (h _).closing (hends key outer)
  · have harity : (checkArity n found : Step Unit) = throw _ := if_neg hfound
    rw [Cursor.places, harity]
    exact Heedless.throw _ _

theorem heedless_restoreFields {field? : α → Bytes → Option (Step α)}
    (h : ∀ x name field, field? x name = some field → Heedless field) (n : Nat) (x : α) :
    Heedless (restoreFields field? n x) := by
  induction n generalizing x with
  | zero => exact .pure x
  | succ n ih =>
      rw [restoreFields]
      refine Heedless.announceKey.bind fun _ => (Heedless.leaf _).bind fun name => ?_
      cases hname : field? x name with
      | some field => exact (h x name field hname).bind ih
      | none => exact Heedless.skip.bind fun _ => ih x

theorem heedless_restoreStruct {n : Nat} {elems : Step α} {field? : α → Bytes → Option (Step α)}
    (helems : Heedless (restoreTuple n elems))
    (h : ∀ x name field, field? x name = some field → Heedless field)
    (hports : ∀ x name field, field? x name = some field → Portable [] field field) (x : α) :
    Heedless (restoreStruct n elems field? x) := by
  refine Heedless.typeNext.bind fun e => ?_
  split
  · refine .scope .map fun key entries outer => .elemLeft ?_
    rw [Cursor.places, Nat.mul_div_cancel_left entries Nat.two_pos]
    exact (heedless_restoreFields h entries x _).closing
      (carries_restoreFields hports key key outer outer entries x)
  · exact helems
  · exact .throw _

theorem heedless_payloadOf {alternative? : Bytes → Bool → Option (Step α)}
    (h : ∀ name step, alternative? name true = some step → Heedless step) (name : Bytes) :
    Heedless (payloadOf alternative? name) := by
  rw [payloadOf]
  split
  · exact h name _ ‹_›
  · exact .throw _

theorem heedless_nameOf {alternative? : Bytes → Bool → Option (Step α)}
    (h : ∀ name step, alternative? name false = some step → Heedless step) (name : Bytes) :
    Heedless (nameOf alternative? name) := by
  rw [nameOf]
  split
  · exact h name _ ‹_›
  · exact .throw _

/-- An entry or a pair is refused unless its name and its payload are all of it. -/
theorem heedless_unionIn {alternative? : Bytes → Bool → Option (Step α)}
    (h : ∀ name step, alternative? name true = some step → Heedless step)
    (kind : Container) (key n : Nat) (outer : List Frame) :
    HeedlessAt (.opened kind key n :: outer) (unionIn alternative? kind) := by
  refine .elemLeft ?_
  split
  · exact Heedless.throw _ _
  · have hname : Heedless (announceName kind) := by
      cases kind with
      | array => exact .pure ()
      | map => exact .announceKey
    exact (hname.bind fun _ => (Heedless.leaf _).bind (heedless_payloadOf h)) _

theorem heedless_restoreVariant {alternative? : Bytes → Bool → Option (Step α)}
    (h : ∀ name hasPayload step, alternative? name hasPayload = some step → Heedless step)
    (hports : ∀ name step, alternative? name true = some step → Portable [] step step) :
    Heedless (restoreVariant alternative?) := by
  have hscope : ∀ kind, Heedless (inScope kind (unionIn alternative? kind)) := fun kind =>
    .scope kind fun key n outer =>
      (heedless_unionIn (fun name => h name true) kind key _ outer).closing
        (carries_unionIn hports kind key key outer outer n)
  rw [restoreVariant_eq]
  refine Heedless.typeNext.bind fun e => ?_
  cases e with
  | string => exact (Heedless.leaf _).bind (heedless_nameOf fun name => h name false)
  | map => exact hscope .map
  | array => exact hscope .array
  | _ => exact .throw _

/-! ### Schemas -/

mutual

/-- No object takes notice of the strictness. -/
theorem Schema.heedless_restore (s : Schema) (x : s.Val) : Heedless (s.restore x) := by
  cases s with
  | nil => exact .leaf _
  | bool => exact .leaf _
  | int t initial => exact .consult (fun c => .leaf (c.policy.int t)) fun _ _ => rfl
  | carried t =>
      intro fs c strict hc
      rw [Schema.restore]
      rw [restoreCarried_apply, restoreCarried_apply]
      exact ((Heedless.leaf _).bind fun wide => .ofExcept _) fs c strict hc
  | float p => exact .consult (fun c => .leaf (c.policy.float p)) fun _ _ => rfl
  | number => exact .leaf _
  | char =>
      rw [Schema.restore, restoreChar_eq]
      exact (Heedless.leaf _).bind fun bs => .ofExcept _
  | text storage initial => exact .leaf _
  | binary storage => exact .leaf _
  | extension storage => exact .leaf _
  | fixedExtension capacity => exact (Heedless.leaf _).bind fun e => .ofExcept _
  | timestamp l => exact (Heedless.leaf _).bind fun e => .ofExcept _
  | instant u => exact (Heedless.leaf _).bind fun e => .ofExcept _
  | value storage => exact .value storage
  | list s => exact .elements (s.heedless_restore s.fresh) (s.portable_restore s.fresh)
  | map k v =>
      exact (Heedless.entries (k.heedless_restore k.fresh) (v.heedless_restore v.fresh)
        (k.portable_restore k.fresh) (v.portable_restore v.fresh)).map (mapOfEntries k.compare)
  | option s =>
      refine Heedless.typeNext.bind fun e => ?_
      cases e with
      | null => exact (Heedless.leaf _).map fun _ => none
      | _ => exact (s.heedless_restore (Option.getD x s.fresh)).map some
  | tuple r =>
      exact heedless_restoreTuple (r.heedless_restore x) fun key _ => r.carries_restore x key key
  | struct r =>
      have helems := heedless_restoreTuple (r.heedless_restore x) fun key _ =>
        r.carries_restore x key key
      exact heedless_restoreStruct helems (fun _ _ _ => r.heedless_restoreField)
        (fun _ _ _ => r.portable_restoreField) x
  | variant a =>
      exact heedless_restoreVariant (fun _ _ _ => a.heedless_restore) fun _ _ => a.portable_restore

theorem Row.heedless_restore (r : Row) (x : r.Val) : Heedless (r.restore x) := by
  cases r with
  | nil => exact .pure ()
  | cons name s rest =>
      exact (s.heedless_restore x.1).bind fun y => (rest.heedless_restore x.2).map fun ys => (y, ys)

theorem Row.heedless_restoreField (r : Row) {x : r.Val} {name : Bytes} {field : Step r.Val}
    (h : r.restoreField? x name = some field) : Heedless field := by
  cases r with
  | nil => cases h
  | cons own s rest =>
      obtain ⟨x, xs⟩ := x
      rw [Row.restoreField?] at h
      split at h
      · obtain rfl := Option.some.inj h
        exact (s.heedless_restore x).map (·, xs)
      · obtain ⟨step, hstep, rfl⟩ := Option.map_eq_some_iff.mp h
        exact (rest.heedless_restoreField hstep).map (x, ·)

theorem Alternatives.heedless_restore (a : Alternatives) {name : Bytes} {hasPayload : Bool}
    {step : Step a.Val} (h : a.restore? name hasPayload = some step) : Heedless step := by
  cases a with
  | last own c =>
      obtain ⟨-, h⟩ := Option.ite_none_right_eq_some.mp h
      obtain rfl := Option.some.inj h
      exact c.heedless_restore name hasPayload
  | cons own c rest =>
      rw [Alternatives.restore?] at h
      split at h
      · obtain rfl := Option.some.inj h
        exact (c.heedless_restore name hasPayload).map Sum.inl
      · obtain ⟨step, hstep, rfl⟩ := Option.map_eq_some_iff.mp h
        exact (rest.heedless_restore hstep).map Sum.inr

theorem Content.heedless_restore (c : Content) (name : Bytes) (hasPayload : Bool) :
    Heedless (c.restore name hasPayload) := by
  cases c with
  | unit =>
      cases hasPayload with
      | true => exact .throw _
      | false => exact .pure ()
  | item s =>
      cases hasPayload with
      | true => exact s.heedless_restore s.fresh
      | false => exact .throw _

end

/-! ### Entries that no field is for -/

/-- An entry of a struct under a name that no field has is passed over, with
whatever is nested in its value. -/
theorem Row.restoreFields_of_other {r : Row} (x : r.Val) {e : NamedEntry} {levels key n : Nat}
    {v : OwnedValue} {outer : List Frame} {rest : Bytes} {c : Cursor} (hkeyed : e.Keyed)
    (hname : e.name ∉ r.names) (hvalue : Derives levels e.value v)
    (hc : c.frames = .opened .map key (2 * (n + 1)) :: outer)
    (hroom : c.frames.length + levels ≤ c.maxDepth) (hl : c.source.left = e.bytes ++ rest) :
    ∃ id, restoreFields r.restoreField? (n + 1) x c =
      restoreFields r.restoreField? n x
        (c.moved e.bytes.length (.opened .map key (2 * n) :: outer) id) := by
  let st : Cursor.Setting := ⟨c.policy, c.source.kind⟩
  obtain ⟨node, hbytes, hnode, hheight⟩ := Node.of_derives hvalue
  rw [NamedEntry.bytes, List.append_assoc] at hl
  -- the key is announced and read, and the node behind it passed over
  have hannounce := Cursor.announceKey_of_frames hc
  have hready : st.Ready { c with frames := Cursor.announced key n :: outer }
      (Cursor.announced key n :: outer) levels ((e.header ++ e.name) ++ (e.value ++ rest)) :=
    ⟨rfl, rfl, rfl, by simpa [hc] using hroom, hl⟩
  have hkey : st.Element (Cursor.text .owned) levels (e.header ++ e.name) e.name :=
    .text hkeyed.1 hkeyed.2
  obtain ⟨id, hname'⟩ := hkey.asKey key n _ _ hready
  have hlen : (.opened .map key (2 * n + 1) :: outer : List Frame).length ≤
      (Cursor.announced key n :: outer).length := Nat.le_refl _
  have hready' := hready.moved hlen id
  rw [← hbytes] at hready'
  obtain ⟨id', hskip⟩ := Cursor.Setting.Reads.skipValue hnode hheight key n _ rest hready'
  refine ⟨id', ?_⟩
  rw [restoreFields, bind_of_ok hannounce, bind_of_ok hname']
  rw [restoreField?_of_other hname]
  dsimp only
  rw [bind_of_ok hskip, Cursor.moved_moved, ← List.length_append, hbytes]
  rfl

/-- It makes no difference to the reading of an object whether scopes are closed
strictly. On two cursors that differ in that alone, whatever there is to read,
whatever scopes are open and whatever object there is already, both runs answer
with the same object or with the same error, and leave two cursors that differ
in that alone: at the same position, with the same scopes open. In particular
strict mode does not object to entries that a struct has no field for: such an
entry is passed over, with all that is nested in its value. -/
theorem restore_heeds_no_strictness :
    (∀ (s : Schema) (x : s.Val) (c : Cursor) (strict : Bool),
      s.restore x { c with strict } = endStrict strict (s.restore x c)) ∧
    ∀ (r : Row) (x : r.Val) (e : NamedEntry) (v : OwnedValue) (levels key n : Nat)
      (outer : List Frame) (rest : Bytes) (c : Cursor), e.Keyed → e.name ∉ r.names →
      Derives levels e.value v → c.frames = .opened .map key (2 * (n + 1)) :: outer →
      c.frames.length + levels ≤ c.maxDepth → c.source.left = e.bytes ++ rest →
      ∃ id, restoreFields r.restoreField? (n + 1) x { c with strict := true } =
        restoreFields r.restoreField? n x
          (Cursor.moved { c with strict := true } e.bytes.length
            (.opened .map key (2 * n) :: outer) id) :=
  ⟨fun s x c strict => s.heedless_restore x c.frames c strict rfl,
    fun _ x _ _ _ _ _ _ _ c hkeyed hname hvalue =>
      Row.restoreFields_of_other (c := { c with strict := true }) x hkeyed hname hvalue⟩

/-- A struct without fields, and an entry whose value is an array with an array
inside: passed over, and the map is at its end. -/
theorem restore_heeds_no_strictness_nested :
    let c : Cursor :=
      { source := .ofBytes .memory [0xa1, 0x7a, 0x91, 0x91, 0xc0]
        frames := [.opened .map 1 (2 * 1)]
        lastId := 1 }
    c.frames.length + 2 ≤ c.maxDepth ∧ Derives 2 [0x91, 0x91, 0xc0] (.array [.array [.nil]]) ∧
      ∃ id, restoreFields Row.nil.restoreField? 1 () { c with strict := true } =
        .ok () (Cursor.moved { c with strict := true } 5 [.opened .map 1 0] id) := by
  intro c
  have hroom : c.frames.length + 2 ≤ c.maxDepth := by decide
  have hvalue : Derives 2 [0x91, 0x91, 0xc0] (.array [.array [.nil]]) :=
    .array (.fixed (by decide)) (.cons (.array (.fixed (by decide)) (.cons .nil .nil)) .nil)
  have hkeyed : NamedEntry.Keyed ⟨[0xa1], [0x7a], [0x91, 0x91, 0xc0]⟩ := ⟨.fixed (by decide), rfl⟩
  exact ⟨hroom, hvalue, restore_heeds_no_strictness.2 .nil () _ _ 2 1 0 [] [] c hkeyed
    List.not_mem_nil hvalue rfl hroom rfl⟩

end MsgPack
