import MsgPack.Proofs.Cursor.Covering
import MsgPack.Proofs.Schema.Layers

/-!
The archive refines the direct encoding. What the direct encoding writes the
archive writes as well, and what is read directly is read under a cursor with
exact numbers, down to as many levels as a cursor goes.
-/

namespace MsgPack

/-! ### Entities with a meaning -/

theorem Timestamp.length_of_ofExtension {l : TimestampLayout} {e : Extension} {t : Timestamp l}
    (h : ofExtension l e = .ok t) : e.data.length = l.payloadSize := by
  refine Classical.byContradiction fun hsize => ?_
  unfold ofExtension checkSize at h
  rw [if_neg hsize] at h
  cases htype : checkType e.type <;> rw [htype] at h <;> cases h

namespace Get

/-- What a reader of extensions finds there and then. -/
theorem extension_of_parts {s t u : Source} {type : Int8} {n : Nat} {p : Payload}
    (hheader : extensionHeader s = .ok (type, n) t) (hread : read n t = .ok p u) :
    (do let (type, p) ← extension; return (⟨type, ← Storage.owned.take p⟩ : Extension)) s =
      .ok ⟨type, p.bytes⟩ u := by
  have hextension : extension s = .ok (type, p) u := by
    rw [extension, bind_of_ok hheader]
    exact bind_of_ok hread
  exact bind_of_ok hextension

theorem ofExcept_ok {α : Type} {x : Except Error α} {a : α} {s t : Source}
    (h : (ofExcept x : Get α) s = .ok a t) : x = .ok a ∧ s = t := by
  cases x with
  | error e => cases h
  | ok b =>
      cases h
      exact ⟨rfl, rfl⟩

/-- Wherever a timestamp is read by its own marker, an extension is found that
is one. -/
theorem extension_of_timestamp {l : TimestampLayout} {s u : Source} {stamp : Timestamp l}
    (h : timestamp l s = .ok stamp u) :
    ∃ e : Extension,
      (do let (type, p) ← extension; return (⟨type, ← Storage.owned.take p⟩ : Extension)) s =
        .ok e u ∧ Timestamp.ofExtension l e = .ok stamp := by
  obtain ⟨m, t, hmarker, hrest⟩ := bind_eq_ok_iff.mp h
  obtain rfl := still_marker _ _ _ hmarker
  by_cases hcode : m.code = l.typecode
  · rw [if_pos hcode] at hrest
    obtain ⟨⟨type, n⟩, t', hheader, hrest⟩ := bind_eq_ok_iff.mp hrest
    obtain ⟨_, t'', htype, hrest⟩ := bind_eq_ok_iff.mp hrest
    obtain ⟨-, rfl⟩ := ofExcept_ok htype
    obtain ⟨p, t'', hread, hrest⟩ := bind_eq_ok_iff.mp hrest
    obtain ⟨hstamp, rfl⟩ := ofExcept_ok hrest
    exact ⟨_, extension_of_parts hheader hread, hstamp⟩
  · rw [if_neg hcode] at hrest
    cases hrest

theorem extension_of_instant {u : TimeUnit} {s t : Source} {i : Instant u}
    (h : instant u s = .ok i t) :
    ∃ e : Extension,
      (do let (type, p) ← extension; return (⟨type, ← Storage.owned.take p⟩ : Extension)) s =
        .ok e t ∧ Timestamp.instantOfExtension u e = .ok i := by
  obtain ⟨m, s', hmarker, hrest⟩ := bind_eq_ok_iff.mp h
  obtain rfl := still_marker _ _ _ hmarker
  obtain ⟨l, hread⟩ : ∃ l, (do
      let stamp ← timestamp l
      let nanos ← ofExcept stamp.toInstant
      return nanos.truncate u) s' = .ok i t := by
    cases hcode : m.code <;> rw [hcode] at hrest
    case fixext4 => exact ⟨_, hrest⟩
    case fixext8 => exact ⟨_, hrest⟩
    case ext8 => exact ⟨_, hrest⟩
    all_goals cases hrest
  obtain ⟨stamp, t', hstamp, hrest⟩ := bind_eq_ok_iff.mp hread
  obtain ⟨nanos, t'', hnow, hcut⟩ := bind_eq_ok_iff.mp hrest
  cases hcut
  obtain ⟨hinstant, rfl⟩ := ofExcept_ok hnow
  obtain ⟨e, hextension, he⟩ := extension_of_timestamp hstamp
  refine ⟨e, hextension, ?_⟩
  rw [Timestamp.instantOfExtension, Timestamp.length_of_ofExtension he,
    Timestamp.layoutOfSize_payloadSize]
  dsimp only
  rw [he]
  show (Timestamp.toInstant stamp >>= fun i => Except.ok (i.truncate u)) = _
  rw [hinstant]
  rfl

theorem extension_of_fixed {capacity : Nat} {s t : Source} {e : FixedExtension capacity}
    (h : (do
      let (type, n) ← extensionHeader
      if n ≤ capacity then
        let p ← read n
        ofExcept (FixedExtension.ofExtension capacity ⟨type, p.bytes⟩)
      else
        throw (.invalidData (.extensionCapacity n capacity)) : Get _) s = .ok e t) :
    ∃ found : Extension,
      (do let (type, p) ← extension; return (⟨type, ← Storage.owned.take p⟩ : Extension)) s =
        .ok found t ∧ FixedExtension.ofExtension capacity found = .ok e := by
  obtain ⟨⟨type, n⟩, s', hheader, hrest⟩ := bind_eq_ok_iff.mp h
  dsimp only at hrest
  by_cases hfits : n ≤ capacity
  · rw [if_pos hfits] at hrest
    obtain ⟨p, t', hread, hrest⟩ := bind_eq_ok_iff.mp hrest
    obtain ⟨hfixed, rfl⟩ := ofExcept_ok hrest
    exact ⟨_, extension_of_parts hheader hread, hfixed⟩
  · rw [if_neg hfits] at hrest
    cases hrest

end Get

/-! ### Known markers -/

/-- The one byte that begins nothing is refused by every reader. -/
theorem Schema.decode_of_unused (s : Schema) (h : s.plain) (kind : SourceKind) (rest : Bytes)
    (position : Nat) : ∃ e t, s.decode h ⟨kind, 0xc1 :: rest, position⟩ = .error e t := by
  cases s with
  | option content =>
      obtain ⟨e, t, hcontent⟩ := content.decode_of_unused h kind rest position
      have hmarker : Get.marker ⟨kind, 0xc1 :: rest, position⟩ = .ok ⟨.neverUsed, 0⟩ _ := rfl
      exact ⟨e, t, (bind_of_ok hmarker).trans (bind_of_error hcontent)⟩
  | carried t => cases h
  | char => cases h
  | struct fields => cases h
  | variant alts => cases h
  | int t initial => cases t <;> exact ⟨_, _, rfl⟩
  | float p => cases p <;> exact ⟨_, _, rfl⟩
  | timestamp l => cases l <;> exact ⟨_, _, rfl⟩
  | value storage => cases storage <;> exact ⟨_, _, rfl⟩
  | _ => exact ⟨_, _, rfl⟩
termination_by structural s

/-- What is read begins with a marker that announces something. -/
theorem Schema.known_of_decode {s : Schema} (h : s.plain) {src t : Source} {x : s.Val}
    {m : Marker} (hdecode : s.decode h src = .ok x t) (hmarker : Get.marker src = .ok m src) :
    ∃ e, m.code.entity? = some e := by
  obtain ⟨kind, left, position⟩ := src
  cases left with
  | nil => cases kind <;> cases hmarker
  | cons b rest =>
      obtain rfl : Marker.ofByte b = m := by
        cases hmarker
        rfl
      cases hentity : (Marker.ofByte b).code.entity? with
      | some e => exact ⟨e, rfl⟩
      | none =>
          obtain rfl : b = 0xc1 := forall_byte (P := fun b =>
            (Marker.ofByte b).code.entity? = none → b = 0xc1) (by decide) b hentity
          obtain ⟨e, t, herror⟩ := s.decode_of_unused h kind rest position
          cases herror.symm.trans hdecode

/-! ### Nesting -/

mutual

/-- How many containers of a schema are inside each other. Values are not looked
into. -/
def Schema.levels : Schema → Nat
  | .list s => s.levels + 1
  | .map k v => max k.levels v.levels + 1
  | .option s => s.levels
  | .tuple r | .struct r => r.levels + 1
  | .variant a => a.levels + 1
  | _ => 0

def Row.levels : Row → Nat
  | .nil => 0
  | .cons _ s rest => max s.levels rest.levels

def Alternatives.levels : Alternatives → Nat
  | .last _ c => c.levels
  | .cons _ c rest => max c.levels rest.levels

def Content.levels : Content → Nat
  | .unit => 0
  | .item s => s.levels

end

/-- Whether an object is a value or holds none. A value may be missing, but no
container holds it. -/
def Schema.valuesOutside : Schema → Bool
  | .value _ => true
  | .option s => s.valuesOutside
  | s => s.lacks Schema.isValue

/-! ### Reading under a cursor -/

section Covers

open Cursor (Readable Covers)

variable {deep : Prop} {limit : Nat}

mutual

/-- A plain object without values is read under a cursor as it is read
directly, whatever it is read over, unless its containers nest too deep. -/
theorem Schema.covers_restore : (s : Schema) → (h : s.plain) → s.lacks Schema.isValue →
    (x : s.Val) → {fs : List Frame} → Readable fs → (limit < fs.length + s.levels → deep) →
    Covers deep (s.restore x) (s.decode h) fs (fs.modifyHead Frame.stepped) limit
  | .nil, _, _, _, _, hfs, _ => .leaf hfs _
  | .bool, _, _, _, _, hfs, _ => .leaf hfs _
  | .int t _, _, _, _, _, hfs, _ =>
      (Covers.leaf hfs (Get.exactInt t)).congr fun c hp => by
        show Cursor.leaf (c.policy.int t) c = _
        rw [hp]
        rfl
  | .float p, _, _, _, _, hfs, _ =>
      (Covers.leaf hfs (Get.exactFloat p)).congr fun c hp => by
        show Cursor.leaf (c.policy.float p) c = _
        rw [hp]
        rfl
  | .number, _, _, _, _, hfs, _ => .leaf hfs _
  | .text _ _, _, _, _, _, hfs, _ => .leaf hfs _
  | .binary _, _, _, _, _, hfs, _ => .leaf hfs _
  | .extension _, _, _, _, _, hfs, _ => .leaf hfs _
  | .fixedExtension _, _, _, _, _, hfs, _ => .checked hfs fun _ _ _ => Get.extension_of_fixed
  | .timestamp _, _, _, _, _, hfs, _ => .checked hfs fun _ _ _ => Get.extension_of_timestamp
  | .instant _, _, _, _, _, hfs, _ => .checked hfs fun _ _ _ => Get.extension_of_instant
  | .value _, _, hv, _, _, _, _ => nomatch hv
  | .list s, h, hv, _, fs, hfs, hdeep => by
      rw [Schema.levels] at hdeep
      refine .elements hfs (fun hfull => hdeep (by omega)) fun inside hlen hinside => ?_
      exact s.covers_restore h hv s.fresh hinside fun hless => hdeep (by omega)
  | .map k v, h, hv, _, fs, hfs, hdeep => by
      have h' := Bool.and_eq_true_iff.mp h
      have hv' := Bool.and_eq_true_iff.mp hv
      rw [Schema.levels] at hdeep
      have hentries : Covers deep (Cursor.entries (k.restore k.fresh) (v.restore v.fresh))
          (do collect (do return (← k.decode h'.1, ← v.decode h'.2)) (← Get.mapHeader)) fs
          (fs.modifyHead Frame.stepped) limit := by
        refine .entries hfs (fun hfull => hdeep (by omega)) (fun inside hlen hinside => ?_)
          fun inside hlen hinside => ?_
        · exact k.covers_restore h'.1 hv'.1 k.fresh hinside fun hless => hdeep (by omega)
        · exact v.covers_restore h'.2 hv'.2 v.fresh hinside fun hless => hdeep (by omega)
      have hmap := hentries.map (mapOfEntries k.compare)
      rw [bind_assoc] at hmap
      exact hmap
  | .option s, h, hv, x, _, hfs, hdeep =>
      .option hfs (fun _ _ _ _ => s.known_of_decode h)
        (s.covers_restore h hv (Option.getD x s.fresh) hfs hdeep)
  | .tuple r, h, hv, x, fs, hfs, hdeep => by
      rw [Schema.levels] at hdeep
      refine .tuple hfs (fun hfull => hdeep (by omega)) fun key => ?_
      refine r.covers_restore h hv x key fun hless => hdeep ?_
      rw [Cursor.length_modifyHead] at hless
      omega

/-- The items of a row fill the scope that counts them. -/
theorem Row.covers_restore : (r : Row) → (h : r.plain) → r.lacks Schema.isValue →
    (x : r.Val) → {outer : List Frame} → (key : Nat) →
    (limit < outer.length + 1 + r.levels → deep) →
    Covers deep (r.restore x) (r.decode h) (.opened .array key r.length :: outer)
      (.opened .array key 0 :: outer) limit
  | .nil, _, _, _, _, _, _ => .pure ()
  | .cons _ s rest, h, hv, (x, xs), outer, key, hdeep => by
      have h' := Bool.and_eq_true_iff.mp h
      have hv' := Bool.and_eq_true_iff.mp hv
      rw [Row.levels] at hdeep
      have hitem := s.covers_restore h'.1 hv'.1 x
        (Cursor.readable_array key rest.length outer) fun hless => hdeep (by
          rw [List.length_cons] at hless
          omega)
      have hrest : Covers deep (rest.restore xs) (rest.decode h'.2)
          (.opened .array key rest.length :: outer) (.opened .array key 0 :: outer) limit :=
        rest.covers_restore h'.2 hv'.2 xs key fun hless => hdeep (by omega)
      exact hitem.bind fun x => hrest.map (x, ·)

end

/-- A fresh cursor covers the reader of values, which goes as deep. -/
theorem Storage.covers_value (storage : Storage) :
    Covers deep (Cursor.value storage) (storage.value Value.defaultDepth) [] []
      Value.defaultDepth := by
  intro c v t _ hframes hlimit hget
  have hreadable : Readable c.frames := hframes ▸ trivial
  have halike := Cursor.alike_storage_value storage hreadable
  rw [hframes, hlimit] at halike
  cases halike with
  | ok w u id hrun hget' =>
      obtain ⟨rfl, rfl⟩ := EStateM.Result.ok.inj (hget'.symm.trans hget)
      exact .same id hrun
  | error hrun hget' he => cases hget'.symm.trans hget

theorem Schema.covers_outside (s : Schema) (h : s.plain) (hs : s.valuesOutside) (x : s.Val)
    (hdeep : Value.defaultDepth < s.levels → deep) :
    Covers deep (s.restore x) (s.decode h) [] [] Value.defaultDepth := by
  have hroom : Value.defaultDepth < ([] : List Frame).length + s.levels → deep := by
    rw [List.length_nil, Nat.zero_add]
    exact hdeep
  cases s with
  | value storage =>
      have hvalue : Covers deep (Cursor.value storage) (storage.value Value.defaultDepth) [] []
        Value.defaultDepth := storage.covers_value
      cases storage <;> exact hvalue
  | option content =>
      have hfs : Readable [] := trivial
      exact Covers.option hfs (fun _ _ _ _ => content.known_of_decode h)
        (content.covers_outside h hs (Option.getD x content.fresh) hdeep)
  | _ => exact Schema.covers_restore _ h hs x trivial hroom
termination_by structural s

end Covers

/-! ### The refinement -/

/-- The archive refines the direct encoding. Where an object says nothing itself
of how it is written, the archive with exact numbers is its direct encoding, on
every sink; so is the archive of a number or a value that keeps its numbers, and
the archive of a value is what writing it comes to under every policy. What is
read directly of an input is read of it from an archive with exact numbers, and
as much is left. Only where containers nest deeper than a cursor goes, it may be
refused for that. -/
theorem archive_refines_codec :
    (∀ (s : Schema) (h : s.plain), s.lacks Schema.isUntyped → ∀ x : s.Val,
      s.delivery .exact x = fun kind => s.encode h x { kind }) ∧
    (∀ n : Number, Schema.number.delivery .lossless n =
      fun kind => Schema.number.encode rfl n { kind }) ∧
    (∀ (storage : Storage) (v : OwnedValue), (Schema.value storage).delivery .lossless v =
      fun kind => (Schema.value storage).encode rfl v { kind }) ∧
    (∀ (storage : Storage) (policy : EncodePolicy) (v : OwnedValue),
      (Schema.value storage).delivery policy v = fun kind => v.put policy { kind }) ∧
    ∀ (s : Schema) (h : s.plain), s.valuesOutside → ∀ (kind : SourceKind) (input : Bytes)
      (x : s.Val) (t : Source), (s.decode h).run kind input = .ok x t →
        (∃ c, s.restoreFrom .exact kind input = .ok x c ∧ c.source = t) ∨
          Value.defaultDepth < s.levels ∧
            ∃ e c, s.restoreFrom .exact kind input = .error e c ∧ e.kind = .recursionLimit := by
  refine ⟨fun s h hs x => ?_, Schema.delivery_number .lossless, Schema.delivery_value .lossless,
    fun storage policy => Schema.delivery_value policy storage, fun s h hs kind input x t hrun => ?_⟩
  · rw [Schema.delivery_plain h, s.putAll_events h hs x]
  · have hcovers : Cursor.Covers (Value.defaultDepth < s.levels) (s.restore s.fresh) (s.decode h)
        [] [] Value.defaultDepth := s.covers_outside h hs s.fresh id
    cases hcovers (.ofBytes .exact kind input) x t rfl rfl rfl hrun with
    | same id h => exact .inl ⟨_, h, rfl⟩
    | tooDeep hdeep h he => exact .inr ⟨hdeep, _, _, h, he⟩

/-- Lists of numbers by name, with a byte behind them that is not theirs. -/
theorem archive_refines_codec_scores :
    let s : Schema := .map (.text .owned []) (.list (.intZero .u8))
    let x : s.Val := [([0x61], [⟨7, by decide⟩])]
    s.delivery .exact x .buffer = s.encode rfl x { kind := .buffer } ∧
      Schema.number.delivery .lossless .zero .buffer =
        Schema.number.encode rfl .zero { kind := .buffer } ∧
      ∃ c, s.restoreFrom .exact .memory [0x81, 0xa1, 0x61, 0x91, 0x07, 0xc0] = .ok x c ∧
        c.source.left = [0xc0] := by
  intro s x
  obtain ⟨hwritten, hnumber, -, -, hread⟩ := archive_refines_codec
  refine ⟨congrFun (hwritten s rfl rfl x) .buffer, congrFun (hnumber .zero) .buffer, ?_⟩
  have hrun : (s.decode rfl).run .memory [0x81, 0xa1, 0x61, 0x91, 0x07, 0xc0] =
      .ok x { kind := .memory, left := [0xc0], position := 5 } := rfl
  rcases hread s rfl rfl .memory _ x _ hrun with ⟨c, hc, hsource⟩ | ⟨hdeep, -⟩
  · exact ⟨c, hc, congrArg Source.left hsource⟩
  · exact absurd hdeep (by decide)

/-! ### Beyond the reach of a cursor -/

namespace Schema

/-- Lists inside each other, `n` of them, around small integers. -/
def nestedList : Nat → Schema
  | 0 => intZero .i8
  | n + 1 => list (nestedList n)

theorem plain_nestedList (n : Nat) : (nestedList n).plain := by
  induction n with
  | zero => rfl
  | succ n ih => exact ih

theorem lacks_nestedList (n : Nat) : (nestedList n).lacks isValue := by
  induction n with
  | zero => rfl
  | succ n ih => exact ih

variable {n : Nat} {rest : Bytes}

theorem arrayHeader_fixed {src : Source} {b : UInt8} (hl : src.left = b :: rest)
    (htag : (b, n) ∈ Grammar.fixarrayTags) : Get.arrayHeader src = .ok n (src.advance 1) := by
  have hleft : src.left = [b] ++ rest := hl
  exact Get.accepts_arrayHeader.complete hleft (.fixed htag)

/-- Lists of one list each, around an empty one, are read directly however deep
they are. -/
theorem decode_nestedList {src : Source} (hl : src.left = List.replicate n 0x91 ++ 0x90 :: rest) :
    ∃ x t, (nestedList (n + 1)).decode (plain_nestedList _) src = .ok x t := by
  induction n generalizing src with
  | zero =>
      have hheader : Get.arrayHeader src = .ok 0 (src.advance 1) :=
        arrayHeader_fixed hl (by decide)
      exact ⟨_, _, bind_of_ok hheader⟩
  | succ n ih =>
      have hheader : Get.arrayHeader src = .ok 1 (src.advance 1) :=
        arrayHeader_fixed hl (by decide)
      obtain ⟨x, t, hinner⟩ := @ih (src.advance 1) (congrArg (List.drop 1) hl)
      have hone : collect ((nestedList (n + 1)).decode (plain_nestedList _)) 1 (src.advance 1) =
          .ok [x] t := by
        rw [collect_succ, bind_of_ok hinner]
        rfl
      exact ⟨[x], t, (bind_of_ok hheader).trans hone⟩

theorem restore_list_full {s : Schema} {k : Nat} {c : Cursor} (hfs : Cursor.Readable c.frames)
    (hheader : Cursor.headerOf .array c.source = .ok k (c.source.advance 1))
    (hfull : c.maxDepth ≤ c.frames.length) (x : (list s).Val) :
    ∃ e c', (list s).restore x c = .error e c' ∧ e.kind = .recursionLimit := by
  have hbegin := Cursor.beginScope_of_ok hfs hheader
  rw [Cursor.pushFrame_of_full .array _ ((Cursor.length_modifyHead ..).symm ▸ hfull)] at hbegin
  exact ⟨_, _, bind_of_error hbegin, rfl⟩

/-- A cursor that has room for fewer scopes refuses them. -/
theorem restore_nestedList {c : Cursor} (hfs : Cursor.Readable c.frames)
    (hl : c.source.left = List.replicate n 0x91 ++ 0x90 :: rest)
    (hdeep : c.maxDepth ≤ c.frames.length + n) (x : (nestedList (n + 1)).Val) :
    ∃ e c', (nestedList (n + 1)).restore x c = .error e c' ∧ e.kind = .recursionLimit := by
  induction n generalizing c with
  | zero =>
      have hheader : Cursor.headerOf .array c.source = .ok 0 (c.source.advance 1) :=
        arrayHeader_fixed hl (by decide)
      exact restore_list_full hfs hheader hdeep x
  | succ n ih =>
      have hheader : Cursor.headerOf .array c.source = .ok 1 (c.source.advance 1) :=
        arrayHeader_fixed hl (by decide)
      by_cases hfull : c.maxDepth ≤ c.frames.length
      · exact restore_list_full hfs hheader hfull x
      · let inner : Cursor := { c with
          source := c.source.advance 1
          frames := .opened .array (c.lastId + 1) 1 :: c.frames.modifyHead Frame.stepped
          lastId := c.lastId + 1 }
        have hbegin : Cursor.beginScope .array c = .ok (c.lastId + 1) inner := by
          rw [Cursor.beginScope_of_ok hfs hheader]
          refine Cursor.pushFrame_of_room .array _ ?_
          rw [Cursor.length_modifyHead]
          exact Nat.lt_of_not_le hfull
        have hlength : inner.frames.length = c.frames.length + 1 :=
          congrArg (· + 1) (Cursor.length_modifyHead ..)
        have hdeeper : inner.maxDepth ≤ inner.frames.length + n := by
          rw [hlength]
          show c.maxDepth ≤ _
          omega
        obtain ⟨e, c', hinner, he⟩ := @ih inner (Cursor.readable_array ..)
          (congrArg (List.drop 1) hl) hdeeper (nestedList (n + 1)).fresh
        have hone : collect ((nestedList (n + 1)).restore (nestedList (n + 1)).fresh) 1 inner =
            .error e c' := by
          rw [collect_succ, bind_of_error hinner]
        refine ⟨e, c', (bind_of_ok hbegin).trans ?_, he⟩
        exact (bind_of_ok (Cursor.elemLeft_of_frames rfl)).trans (bind_of_error hone)

end Schema

/-- Lists inside each other, one more than a cursor may open, are read directly
and refused under a cursor. -/
theorem codec_reads_beyond_cursor :
    let s := Schema.nestedList 257
    let input : Bytes := List.replicate 256 0x91 ++ [0x90]
    ∃ h : s.plain, s.valuesOutside ∧ (∃ x t, (s.decode h).run .memory input = .ok x t) ∧
      ∃ e c, s.restoreFrom .exact .memory input = .error e c ∧ e.kind = .recursionLimit := by
  intro s input
  refine ⟨Schema.plain_nestedList 257, Schema.lacks_nestedList 257, ?_, ?_⟩
  · have hl : (Source.ofBytes .memory input).left = List.replicate 256 0x91 ++ 0x90 :: [] := rfl
    exact Schema.decode_nestedList hl
  · have hl : (Cursor.ofBytes .exact .memory input).source.left =
        List.replicate 256 0x91 ++ 0x90 :: [] := rfl
    exact Schema.restore_nestedList (c := .ofBytes .exact .memory input) trivial hl
      (Nat.le_refl 256) s.fresh

end MsgPack
