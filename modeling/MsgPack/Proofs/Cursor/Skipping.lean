import MsgPack.Proofs.Cursor.Following
import MsgPack.Proofs.Cursor.Mirroring
import MsgPack.Proofs.Cursor.Reachable

/-!
Skipping an element and reading it as a value. What is skipped is one node, with
everything inside it, and if the node is a value the cursor is afterwards where
it would be had the value been read.
-/

namespace MsgPack

open Node (bytesAll WellFormedAll)

namespace Get

/-! ### What passing over a leaf takes -/

section Leaves

variable {s t : Source} {b : UInt8} {bs rest : Bytes}

theorem discard_read_sound {n : Nat} (h : discard (read n) s = .ok () t) :
    ∃ bs rest, s.left = bs ++ rest ∧ bs.length = n ∧ t = s.advance bs.length := by
  obtain ⟨p, u, hread, hu⟩ := bind_eq_ok_iff.mp h
  cases hu
  obtain ⟨bs, rest, hl, ⟨hlen, -⟩, ht⟩ := (lends_read n).sound hread
  exact ⟨bs, rest, hl, hlen, ht⟩

theorem leaf_of_byte (hb : (Marker.ofByte b).code ∈
    [Typecode.nil, .boolFalse, .boolTrue, .positiveFixint, .negativeFixint]) : Leaf [b] := by
  have hbyte := b.toNat_lt
  simp only [List.mem_cons, List.not_mem_nil, or_false] at hb
  obtain hb | hb | hb | hb | hb := hb
  · obtain rfl := byte_of_code hb rfl
    exact .nil
  · obtain rfl := byte_of_code hb rfl
    exact .bool .false
  · obtain rfl := byte_of_code hb rfl
    exact .bool .true
  · exact .number (numeral_cons_iff.mpr ((numeralAfter_positiveFixint hb).mpr
      ⟨rfl, ⟨b.toNat, by omega⟩, rfl, rfl⟩))
  · exact .number (numeral_cons_iff.mpr ((numeralAfter_negativeFixint hb).mpr
      ⟨rfl, ⟨b.toNat - 0x100, by omega⟩, rfl, rfl⟩))

theorem leaf_of_int {t : IntType} (hb : (Marker.ofByte b).code.intType? = some t)
    (hlen : bs.length = t.bytes) : Leaf (b :: bs) :=
  .number (numeral_cons_iff.mpr
    ((numeralAfter_sized hb).mpr ⟨hlen, (t.ofBits bs.toNat).toWire, rfl, rfl⟩))

theorem leaf_of_float {p : Precision} (hb : (Marker.ofByte b).code.precision? = some p)
    (hlen : bs.length = p.bytes) : Leaf (b :: bs) :=
  .number (numeral_cons_iff.mpr ((numeralAfter_float hb).mpr ⟨hlen, rfl⟩))

theorem leaf_of_fixstr (hb : (Marker.ofByte b).code = .fixstr)
    (hlen : bs.length = (Marker.ofByte b).payload.toNat) : Leaf (b :: bs) := by
  have htag : textLength (.ofByte b) = some (.inl bs.length) := by
    rw [textLength, hb, hlen]
  exact @Leaf.text [b] bs (.fixed (textLength_tabulates.mem_fixed.mp htag))

/-- Marker and content that are read in one piece. -/
theorem cons_of_discard_read (hl : s.left = b :: rest) {n : Nat}
    (h : discard (read (1 + n)) s = .ok () t) :
    ∃ bs rest', s.left = b :: bs ++ rest' ∧ bs.length = n ∧ t = s.advance (b :: bs).length := by
  obtain ⟨piece, rest', hpiece, hlen, ht⟩ := discard_read_sound h
  cases piece with
  | nil => exact absurd hlen (by simp; omega)
  | cons b' bs =>
      obtain ⟨rfl, -⟩ := List.cons.inj (hl.symm.trans hpiece)
      refine ⟨bs, rest', hpiece, ?_, ht⟩
      rw [List.length_cons] at hlen
      omega

/-- A length that is read, and as many bytes. -/
theorem headed_of_discard_read {header : Get Nat} {L : Language Nat} (hheader : Accepts header L)
    (h : (do discard (read (← header)) : Get Unit) s = .ok () t) :
    ∃ bs content rest, s.left = bs ++ content ++ rest ∧ L bs content.length ∧
      t = s.advance (bs ++ content).length := by
  obtain ⟨n, u, hrun, hread⟩ := bind_eq_ok_iff.mp h
  obtain ⟨bs, rest, hl, hn, rfl⟩ := hheader.sound hrun
  obtain ⟨content, rest', hl', rfl, rfl⟩ := discard_read_sound hread
  rw [Source.left_advance_length hl] at hl'
  refine ⟨bs, content, rest', by rw [hl, hl', List.append_assoc], hn, ?_⟩
  rw [Source.advance_advance, List.length_append]

/-- The codes of leaves, by how their size is known. -/
theorem family_of_entity {code : Typecode} {e : EntityType} (he : code.entity? = some e)
    (hne : ∀ kind : Container, e ≠ kind.entity) :
    code ∈ [Typecode.nil, .boolFalse, .boolTrue, .positiveFixint, .negativeFixint] ∨
      (∃ t, code.intType? = some t) ∨ (∃ p, code.precision? = some p) ∨ code = .fixstr ∨
      code ∈ [Typecode.str8, .str16, .str32] ∨ code ∈ [Typecode.bin8, .bin16, .bin32] ∨
      code.entity? = some .extension := by
  cases code <;> first
    | exact .inl (by decide)
    | exact .inr (.inl ⟨_, rfl⟩)
    | exact .inr (.inr (.inl ⟨_, rfl⟩))
    | exact .inr (.inr (.inr (.inl rfl)))
    | exact .inr (.inr (.inr (.inr (.inl (by decide)))))
    | exact .inr (.inr (.inr (.inr (.inr (.inl (by decide))))))
    | exact .inr (.inr (.inr (.inr (.inr (.inr rfl)))))
    | exact absurd (Option.some.inj he).symm (hne .array)
    | exact absurd (Option.some.inj he).symm (hne .map)
    | cases he

/-- What is passed over as a leaf is one, if it does not begin as a container. -/
theorem skipLeaf_sound {m : Marker} {e : EntityType} (hm : marker s = .ok m s)
    (he : m.code.entity? = some e) (hne : ∀ kind : Container, e ≠ kind.entity)
    (h : skipLeaf s = .ok () t) :
    ∃ bs rest, s.left = bs ++ rest ∧ Leaf bs ∧ t = s.advance bs.length := by
  obtain ⟨b, rest, hl⟩ : ∃ b rest, s.left = b :: rest := by
    cases hl : s.left with
    | nil => cases hk : s.kind <;> simp [marker, bind_apply, peek, hl, hk] at hm
    | cons b rest => exact ⟨b, rest, rfl⟩
  rw [marker_cons hl] at hm
  cases hm
  obtain hb | ⟨t, hb⟩ | ⟨p, hb⟩ | hb | hb | hb | hb := family_of_entity he hne
  · cases (skipLeaf_byte hl hb).symm.trans h
    exact ⟨[b], rest, hl, leaf_of_byte hb, rfl⟩
  · rw [skipLeaf_of_intType hl hb] at h
    obtain ⟨bs, rest', hl', hlen, ht⟩ := cons_of_discard_read hl h
    exact ⟨b :: bs, rest', hl', leaf_of_int hb hlen, ht⟩
  · rw [skipLeaf_of_precision hl hb] at h
    obtain ⟨bs, rest', hl', hlen, ht⟩ := cons_of_discard_read hl h
    exact ⟨b :: bs, rest', hl', leaf_of_float hb hlen, ht⟩
  · rw [skipLeaf_of_fixstr hl hb] at h
    obtain ⟨bs, rest', hl', hlen, ht⟩ := cons_of_discard_read hl h
    exact ⟨b :: bs, rest', hl', leaf_of_fixstr hb hlen, ht⟩
  · rw [skipLeaf_of_text hl hb] at h
    obtain ⟨bs, content, rest', hl', hheader, ht⟩ := headed_of_discard_read accepts_textHeader h
    exact ⟨bs ++ content, rest', hl', .text hheader, ht⟩
  · rw [skipLeaf_of_binary hl hb] at h
    obtain ⟨bs, content, rest', hl', hheader, ht⟩ := headed_of_discard_read accepts_binaryHeader h
    exact ⟨bs ++ content, rest', hl', .binary hheader, ht⟩
  · rw [skipLeaf_of_extension hl hb] at h
    obtain ⟨x, u, hext, hu⟩ := bind_eq_ok_iff.mp h
    cases hu
    exact whole_extension _ _ _ hext

end Leaves

end Get

/-! ### Values in either manner -/

/-- Where `g` succeeds, `g'` does, with the answer that `f` makes of it. -/
def Get.Yields {α β : Type} (g : Get β) (g' : Get α) (f : β → α) : Prop :=
  ∀ (s t : Source) (b : β), g s = .ok b t → g' s = .ok (f b) t

namespace Get.Yields

variable {α β γ δ : Type} {g : Get β} {g' : Get α} {f : β → α}

theorem refl (g : Get α) : Yields g g id := fun _ _ _ h => h

theorem pure (f : β → α) (b : β) : Yields (pure b) (pure (f b)) f := by
  intro s t b' h
  cases h
  rfl

theorem throw (e : Error) : Yields (throw e) (throw e) f := by
  intro s t b h
  cases h

theorem bind {k : β → Get δ} {k' : α → Get γ} {j : δ → γ} (h : Yields g g' f)
    (hk : ∀ b, Yields (k b) (k' (f b)) j) : Yields (g >>= k) (g' >>= k') j := by
  intro s t d hrun
  obtain ⟨b, u, hg, hnext⟩ := bind_eq_ok_iff.mp hrun
  rw [bind_of_ok (h s u b hg)]
  exact hk b u t d hnext

theorem map {j : δ → γ} {k : β → δ} {k' : α → γ} (h : Yields g g' f)
    (hk : ∀ b, k' (f b) = j (k b)) : Yields (do return k (← g)) (do return k' (← g')) j :=
  h.bind fun b => hk b ▸ .pure j (k b)

theorem collect (h : Yields g g' f) (n : Nat) :
    Yields (collect g n) (MsgPack.collect g' n) (List.map f) := by
  induction n with
  | zero => exact .pure (List.map f) []
  | succ n ih =>
      rw [collect_succ, collect_succ]
      exact h.bind fun b => ih.map fun _ => rfl

end Get.Yields

theorem yields_take (p : Payload) :
    Get.Yields (Takes.take p : Get ByteView) (Takes.take p) ByteView.toBytes := by
  intro s t view h
  have hborrow : Get.borrow p s = .ok view t := h
  rw [Get.borrow] at hborrow
  split at hborrow
  · cases hborrow
    rfl
  · cases hborrow

theorem yields_getWith {inside : Option (Get ValueRef)} {inside' : Option (Get OwnedValue)}
    (h : Option.Rel (Get.Yields · · Value.toOwned) inside inside') :
    Get.Yields (Value.getWith inside) (Value.getWith inside') Value.toOwned := by
  refine (Get.Yields.refl Get.marker).bind fun m => ?_
  dsimp only [id]
  cases m.code.entity? with
  | none => exact .throw _
  | some e =>
      cases e with
      | null => exact (Get.Yields.refl _).bind fun _ => .pure Value.toOwned Value.nil
      | boolean => exact (Get.Yields.refl Get.bool).map fun _ => rfl
      | integer => exact (Get.Yields.refl Get.anyNumber).map fun _ => rfl
      | floatingPoint => exact (Get.Yields.refl Get.anyNumber).map fun _ => rfl
      | string =>
          exact (Get.Yields.refl Get.text).bind fun p => (yields_take p).map fun _ => rfl
      | binary =>
          exact (Get.Yields.refl Get.binary).bind fun p => (yields_take p).map fun _ => rfl
      | extension =>
          exact (Get.Yields.refl Get.extension).bind fun e => (yields_take e.2).map fun _ => rfl
      | array =>
          cases h with
          | none => exact .throw _
          | some h =>
              refine (Get.Yields.refl Get.arrayHeader).bind fun n => ?_
              exact (h.collect n).map fun vs => congrArg Value.array (Value.mapElems_eq _ vs).symm
      | map =>
          cases h with
          | none => exact .throw _
          | @some get get' h =>
              refine (Get.Yields.refl Get.mapHeader).bind fun n => ?_
              have hentry : Get.Yields (do return (← get, ← get)) (do return (← get', ← get'))
                  (Prod.map Value.toOwned Value.toOwned) :=
                h.bind fun k => h.map fun _ => rfl
              exact (hentry.collect n).map fun es =>
                congrArg Value.map (Value.mapEntries_eq _ es).symm

/-- Whatever is read with its content borrowed is read with its content owned. -/
theorem Storage.get_of_value {storage : Storage} {depth : Nat} {s t : Source} {v : OwnedValue}
    (h : storage.value depth s = .ok v t) : Value.get depth s = .ok v t := by
  cases storage with
  | owned => exact h
  | borrowed =>
      obtain ⟨view, u, hview, hu⟩ := bind_eq_ok_iff.mp h
      cases hu
      have hyields : ∀ depth, Get.Yields (Value.get depth) (Value.get depth) Value.toOwned := by
        intro depth
        induction depth with
        | zero => exact yields_getWith .none
        | succ depth ih => exact yields_getWith (.some ih)
      exact hyields depth s _ view hview

namespace Cursor

variable {c c' : Cursor} {f : Frame} {outer : List Frame} {one : Step Unit}

/-! ### What passing over an element takes -/

theorem opening_of_headerOf {kind : Container} {s t : Source} {n : Nat}
    (h : headerOf kind s = .ok n t) :
    ∃ header rest, s.left = header ++ rest ∧ kind.Opening header (places kind n) ∧
      t = s.advance header.length := by
  cases kind with
  | array => exact Get.accepts_arrayHeader.sound h
  | map =>
      obtain ⟨header, rest, hl, hheader, ht⟩ := Get.accepts_mapHeader.sound h
      exact ⟨header, rest, hl, ⟨n, hheader, rfl⟩, ht⟩

/-- What consumes an element succeeds only where one may be read. -/
theorem readable_of_ok {α : Type} {k : Unit → Step α} {a : α}
    (h : (checkReadable >>= k) c = .ok a c') : Readable c.frames := by
  by_cases hreadable : Readable c.frames
  · exact hreadable
  · obtain ⟨misuse, hmisuse⟩ := checkReadable_of_not_readable hreadable
    cases (bind_of_error hmisuse).symm.trans h

/-- A leaf is read where an element may be, and counts as one. -/
theorem leaf_inv {α : Type} {g : Get α} {a : α} (h : leaf g c = .ok a c') :
    Readable c.frames ∧ ∃ t, g c.source = .ok a t ∧
      c' = { c with source := t, frames := c.frames.modifyHead Frame.stepped } := by
  have hreadable := readable_of_ok h
  cases hsource : g c.source with
  | error e t => cases (leaf_of_error hreadable hsource).symm.trans h
  | ok b t =>
      cases (leaf_of_ok hreadable hsource).symm.trans h
      exact ⟨hreadable, t, rfl, rfl⟩

/-- A container is opened where an element may be read and there is room for one
more scope. -/
theorem beginScope_inv {kind : Container} {key : Nat} (h : beginScope kind c = .ok key c') :
    Readable c.frames ∧ c.frames.length < c.maxDepth ∧ key = c.lastId + 1 ∧
      ∃ header n rest, kind.Opening header n ∧ c.source.left = header ++ rest ∧
        c' = c.moved header.length (.opened kind key n :: c.frames.modifyHead Frame.stepped) key := by
  have hreadable : Readable c.frames := by
    cases kind <;> exact readable_of_ok h
  cases hheader : headerOf kind c.source with
  | error e s => cases (beginScope_of_error hreadable hheader).symm.trans h
  | ok n s =>
      rw [beginScope_of_ok hreadable hheader] at h
      obtain ⟨header, rest, hl, hopening, rfl⟩ := opening_of_headerOf hheader
      by_cases hroom : c.frames.length < c.maxDepth
      · rw [pushFrame_of_room kind _ ((length_modifyHead ..).symm ▸ hroom)] at h
        cases h
        exact ⟨hreadable, hroom, rfl, header, _, rest, hopening, hl, rfl⟩
      · rw [pushFrame_of_full kind _ ((length_modifyHead ..).symm ▸ Nat.le_of_not_lt hroom)] at h
        cases h

/-- Where the step succeeds, what it has passed over is a node. -/
def Discards (one : Step Unit) : Prop :=
  ∀ c c' : Cursor, SettledIn c.frames → one c = .ok () c' →
    ∃ (n : Node) (rest : Bytes), n.WellFormed ∧ n.height ≤ c.maxDepth - c.frames.length ∧
      c.source.left = n.bytes ++ rest ∧ c.Past n.bytes (c.frames.modifyHead Frame.passed) c'

theorem times_discards (hone : Discards one) {k : Nat} (hframes : c.frames = f :: outer)
    (hremaining : f.remaining = k) (hsettled : f.Settled)
    (h : times (do announceSkipped; one) k c = .ok () c') :
    ∃ (items : List Node) (rest : Bytes) (g : Frame), items.length = k ∧ WellFormedAll items ∧
      Node.heightAll items ≤ c.maxDepth - c.frames.length ∧
      c.source.left = bytesAll items ++ rest ∧ c.Past (bytesAll items) (g :: outer) c' := by
  induction k generalizing c f with
  | zero =>
      cases h
      exact ⟨[], _, f, rfl, trivial, Nat.zero_le _, rfl, rfl, hframes, rfl, rfl, rfl⟩
  | succ k ih =>
      obtain ⟨g, hannounce, -, hg, hpassed⟩ :=
        announceSkipped_of_frames hframes (by rw [hremaining]; exact Nat.succ_ne_zero _) hsettled
      obtain ⟨_, c₁, hstep, htimes⟩ := bind_eq_ok_iff.mp h
      rw [bind_of_ok hannounce] at hstep
      obtain ⟨n, rest, hn, hheight, hl, hpast⟩ := hone { c with frames := g :: outer } c₁ hg hstep
      have hfirst : c.Past n.bytes (f.passed :: outer) c₁ :=
        ⟨hpast.source, hpassed ▸ hpast.frames, hpast.maxDepth, hpast.strict, hpast.policy⟩
      have hlen : c.frames.length = (g :: outer).length := by rw [hframes]; rfl
      obtain ⟨items, rest', g', hcount, hitems, hheights, hl', hrest⟩ :=
        ih hfirst.frames (by rw [Frame.passed, hremaining]; rfl) f.settled_passed htimes
      have hlen' : c₁.frames.length = c.frames.length := by rw [hfirst.frames, hframes]; rfl
      rw [hlen', hfirst.maxDepth] at hheights
      rw [hfirst.left hl] at hl'
      refine ⟨n :: items, rest', g', congrArg (· + 1) hcount, ⟨hn, hitems⟩, ?_, ?_,
        hfirst.trans hrest⟩
      · exact Nat.max_le.mpr ⟨hlen ▸ hheight, hheights⟩
      · rw [bytesAll, List.append_assoc, ← hl']
        exact hl

theorem drainWith_discards (hone : Discards one) (hframes : c.frames = f :: outer)
    (hsettled : f.Settled) (h : drainWith one c = .ok () c') :
    ∃ (items : List Node) (rest : Bytes), items.length = f.remaining ∧ WellFormedAll items ∧
      Node.heightAll items ≤ c.maxDepth - c.frames.length ∧
      c.source.left = bytesAll items ++ rest ∧ c.Past (bytesAll items) outer c' := by
  rw [drainWith, bind_of_ok (innermost_of_frames hframes)] at h
  obtain ⟨_, c₁, htimes, hpop⟩ := bind_eq_ok_iff.mp h
  obtain ⟨items, rest, g, hcount, hitems, hheights, hl, hpast⟩ :=
    times_discards hone hframes rfl hsettled htimes
  cases hpop
  refine ⟨items, rest, hcount, hitems, hheights, hl, hpast.source, ?_, hpast.maxDepth,
    hpast.strict, hpast.policy⟩
  dsimp only
  rw [hpast.frames, List.tail_cons]

/-- The marker is read where it stays. -/
theorem fromSource_marker_inv {m : Marker} (h : fromSource Get.marker c = .ok m c') :
    Get.marker c.source = .ok m c.source ∧ c' = c := by
  cases hm : Get.marker c.source with
  | error e s => cases (fromSource_of_error hm).symm.trans h
  | ok m' s =>
      cases (fromSource_of_ok hm).symm.trans h
      obtain rfl := Get.still_marker _ _ _ hm
      exact ⟨rfl, rfl⟩

/-- A container that is opened and drained is a node. -/
theorem discards_container (kind : Container) (hone : Discards one) :
    Discards (do discard (beginScope kind); drainWith one) := by
  intro c c' hsettled h
  obtain ⟨_, c₁, hbegin, hdrain⟩ := bind_eq_ok_iff.mp h
  obtain ⟨key, c₂, hopen, hc₂⟩ := bind_eq_ok_iff.mp hbegin
  cases hc₂
  obtain ⟨-, hroom, -, header, n, rest, hopening, hl, rfl⟩ := beginScope_inv hopen
  rw [modifyHead_stepped hsettled] at hdrain
  obtain ⟨items, rest', hcount, hitems, hheights, hl', hpast⟩ :=
    drainWith_discards hone rfl (fun hpending => Bool.noConfusion hpending) hdrain
  have hopened : c.Past header (.opened kind key n :: c.frames.modifyHead Frame.passed)
      (c.moved header.length (.opened kind key n :: c.frames.modifyHead Frame.passed) key) :=
    ⟨rfl, rfl, rfl, rfl, rfl⟩
  rw [hopened.left hl] at hl'
  rw [hopened.frames, List.length_cons, length_modifyHead, hopened.maxDepth] at hheights
  refine ⟨.container kind header items, rest', ⟨?_, hitems⟩, ?_, ?_, hopened.trans hpast⟩
  · rw [hcount]
    exact hopening
  · rw [Node.height]
    omega
  · rw [hl, hl', Node.bytes, List.append_assoc]

/-- Where what comes next does not begin as a container, a leaf is passed
over. -/
theorem leaf_of_skipLeaf {m : Marker} {e : EntityType}
    (hm : Get.marker c.source = .ok m c.source) (he : m.code.entity? = some e)
    (hne : ∀ kind : Container, e ≠ kind.entity)
    (h : (do fromSource Get.skipLeaf; stepOverSkipped) c = .ok () c') :
    ∃ bs rest, Leaf bs ∧ c.source.left = bs ++ rest ∧
      c.Past bs (c.frames.modifyHead Frame.passed) c' := by
  cases hskip : Get.skipLeaf c.source with
  | error e' s => cases (bind_of_error (fromSource_of_error hskip)).symm.trans h
  | ok u s =>
      rw [bind_of_ok (fromSource_of_ok hskip), stepOverSkipped_apply] at h
      cases h
      obtain ⟨bs, rest, hl, hleaf, rfl⟩ := Get.skipLeaf_sound hm he hne hskip
      exact ⟨bs, rest, hleaf, hl, rfl, rfl, rfl, rfl, rfl⟩

theorem discards_skipWith (hone : Discards one) : Discards (skipWith one) := by
  intro c c' hsettled h
  obtain ⟨m, c₁, hmarker, -⟩ := bind_eq_ok_iff.mp h
  obtain ⟨hm, hc₁⟩ := fromSource_marker_inv hmarker
  rw [hc₁] at hmarker
  cases he : m.code.entity? with
  | none =>
      rw [skipWith, bind_of_ok hmarker, he] at h
      cases h
  | some e =>
      by_cases hkind : ∃ kind : Container, e = kind.entity
      · obtain ⟨kind, rfl⟩ := hkind
        rw [skipWith_of_container hm he] at h
        exact discards_container kind hone c c' hsettled h
      · have hne : ∀ kind : Container, e ≠ kind.entity := fun kind heq => hkind ⟨kind, heq⟩
        rw [skipWith_of_leaf hm he hne] at h
        obtain ⟨bs, rest, hleaf, hl, hpast⟩ := leaf_of_skipLeaf hm he hne h
        exact ⟨.leaf bs, rest, hleaf, Nat.zero_le _, hl, hpast⟩

theorem discards_skipWithin (levels : Nat) : Discards (skipWithin levels) := by
  induction levels with
  | zero =>
      refine discards_skipWith fun c c' _ h => ?_
      have hdeep : tooDeep c = (.error (.recursionLimit (.openScopes c.maxDepth)) c :
        EStateM.Result Error Cursor Unit) := rfl
      cases hdeep.symm.trans h
  | succ levels ih => exact discards_skipWith ih

/-- What is skipped is a node, nested no deeper than the cursor allows. -/
theorem node_of_skip (hsettled : SettledIn c.frames) (h : skip c = .ok () c') :
    Readable c.frames ∧ ∃ (n : Node) (rest : Bytes), n.WellFormed ∧
      n.height ≤ c.maxDepth - c.frames.length ∧ c.source.left = n.bytes ++ rest ∧
      c.Past n.bytes (c.frames.modifyHead Frame.passed) c' := by
  have hreadable := readable_of_ok h
  rw [skip_of_readable hreadable] at h
  exact ⟨hreadable, discards_skipWithin _ _ _ hsettled h⟩

/-- A node that is nested no deeper than the cursor allows is skipped. -/
theorem skip_of_node {n : Node} {rest : Bytes} (hn : n.WellFormed)
    (hheight : n.height ≤ c.maxDepth - c.frames.length) (hreadable : Readable c.frames)
    (hsettled : SettledIn c.frames) (hl : c.source.left = n.bytes ++ rest) :
    ∃ c', skip c = .ok () c' ∧ c.Past n.bytes (c.frames.modifyHead Frame.passed) c' := by
  rw [skip_of_readable hreadable]
  cases n with
  | leaf bs =>
      refine ⟨{ c with
        source := c.source.advance bs.length
        frames := c.frames.modifyHead Frame.passed }, ?_, rfl, rfl, rfl, rfl, rfl⟩
      cases c.maxDepth - c.frames.length <;> exact skipWith_leaf hn hl
  | container kind header items =>
      refine (passes_skipWithin _ _ c rest hn hreadable hsettled hl (by omega)).of_room ?_
      rw [Node.height] at hheight ⊢
      omega

/-! ### Skipping and reading -/

/-- What is read as a value where the cursor stands is skipped with as much of
the input behind it. -/
theorem skip_of_value {storage : Storage} {v : OwnedValue} {t : Source}
    (hsettled : SettledIn c.frames) (hreadable : Readable c.frames)
    (hvalue : storage.value (c.maxDepth - c.depth) c.source = .ok v t) :
    ∃ c', skip c = .ok () c' ∧ c'.source = t ∧ c'.frames = c.frames.modifyHead Frame.passed := by
  obtain ⟨bs, rest, hl, hv, rfl⟩ := (accepts_get _).sound (Storage.get_of_value hvalue)
  obtain ⟨n, rfl, hn, hheight⟩ := Node.of_derives hv
  obtain ⟨c', hskip, hpast⟩ := skip_of_node hn hheight hreadable hsettled hl
  exact ⟨c', hskip, hpast.source, hpast.frames⟩

/-- Skipping discards one value. Wherever calls have led the cursor, if an
element may be read and what comes next is read as a value, nested no deeper
than the cursor allows from there, then it is skipped with as much of the input
behind it. The scopes around are left alone, and the innermost one has one
element less and no key announced, just as when the element is read into a
value. And whatever is skipped is one node of the grammar, nested no deeper than
that. Its texts need not be valid; if they are, it is read as a value. -/
theorem skip_discards_value (h : Reachable c) :
    (∀ (storage : Storage) (v : OwnedValue) (t : Source), Readable c.frames →
      storage.value (c.maxDepth - c.depth) c.source = .ok v t →
      ∃ c' d, skip c = .ok () c' ∧ c'.source = t ∧
        c'.frames = c.frames.modifyHead Frame.passed ∧
        value storage c = .ok v d ∧ d.source = c'.source ∧ d.frames = c'.frames) ∧
    ∀ c', skip c = .ok () c' → Readable c.frames ∧
      ∃ n : Node, n.WellFormed ∧ n.height ≤ c.maxDepth - c.depth ∧
        c.source.left = n.bytes ++ c'.source.left ∧
        c'.source = c.source.advance n.bytes.length ∧
        c'.frames = c.frames.modifyHead Frame.passed ∧
        (n.TextsValid → ∃ v, Value.get (c.maxDepth - c.depth) c.source =
          .ok (v : OwnedValue) c'.source) := by
  have hsettled := h.orderly.settledIn
  refine ⟨fun storage v t hreadable hvalue => ?_, fun c' hskip => ?_⟩
  · obtain ⟨c', hskip, rfl, hframes⟩ := skip_of_value hsettled hreadable hvalue
    cases alike_storage_value storage hreadable with
    | error hrun hget he => cases hvalue.symm.trans hget
    | ok v' s id hrun hget =>
        cases hvalue.symm.trans hget
        refine ⟨c', _, hskip, rfl, hframes, hrun, rfl, ?_⟩
        rw [hframes]
        exact modifyHead_stepped hsettled
  · obtain ⟨hreadable, n, rest, hn, hheight, hl, hpast⟩ := node_of_skip hsettled hskip
    refine ⟨hreadable, n, hn, hheight, by rw [hpast.left hl, hl], hpast.source, hpast.frames,
      fun hvalid => ?_⟩
    obtain ⟨v, hv⟩ := n.derives_of_valid hn hvalid hheight
    exact ⟨v, hpast.source ▸ (accepts_get _).complete hl hv⟩

/-- An array within an array, skipped or read in the scope of the outer one. -/
theorem skip_discards_value_nested :
    let outer : Frame := .opened .array 1 2
    let c : Cursor := { maxDepth := 2, source := ⟨.memory, [0x91, 0xa1, 0x78, 0x07], 1⟩,
                        frames := [outer], lastId := 1 }
    let v : OwnedValue := .array [.string [0x78]]
    Reachable c ∧ Readable c.frames ∧ Storage.value .owned 1 c.source = .ok v ⟨.memory, [7], 4⟩ ∧
      ∃ c' d, skip c = .ok () c' ∧ c'.source = ⟨.memory, [7], 4⟩ ∧ c'.frames = [outer.passed] ∧
        value .owned c = .ok v d ∧ d.source = c'.source ∧ d.frames = c'.frames := by
  intro outer c v
  have hreachable : Reachable c :=
    .done (.fresh .widening 2 false .memory [0x92, 0x91, 0xa1, 0x78, 0x07]) (.enter .array) rfl
  have hreadable : Readable c.frames := readable_array 1 1 []
  exact ⟨hreachable, hreadable, rfl,
    (skip_discards_value hreachable).1 .owned v ⟨.memory, [7], 4⟩ hreadable rfl⟩

end Cursor

end MsgPack
