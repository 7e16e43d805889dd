import MsgPack.Proofs.Bytes
import MsgPack.Proofs.Grammar
import MsgPack.Proofs.Wire.Accepts

/-!
The readers of texts, binaries, extensions and the headers of containers accept
the languages that the grammar has for them. The tables of the grammar and the
functions that readers ask about a marker are compared once, byte by byte;
everything else is composition.
-/

namespace MsgPack.Get

open Grammar (Header TextHeader BinaryHeader ExtensionHeader ArrayHeader MapHeader)

/-! ### Headers -/

/-- Whether an answer about the marker `b` is in the tables. -/
def listed (fixed sized : List (UInt8 × Nat)) (b : UInt8) : Nat ⊕ Nat → Bool
  | .inl n => fixed.contains (b, n)
  | .inr width => sized.contains (b, width)

/-- The tables hold what a family knows about markers. -/
structure Tabulates (lengthOf : Marker → Option (Nat ⊕ Nat))
    (fixed sized : List (UInt8 × Nat)) : Prop where
  of_fixed : ∀ e ∈ fixed, lengthOf (.ofByte e.1) = some (.inl e.2)
  of_sized : ∀ e ∈ sized, lengthOf (.ofByte e.1) = some (.inr e.2)
  only : ∀ b : UInt8, (lengthOf (.ofByte b)).all (listed fixed sized b)

section Length

variable {lengthOf : Marker → Option (Nat ⊕ Nat)} {fixed sized : List (UInt8 × Nat)}

theorem Tabulates.mem_fixed (h : Tabulates lengthOf fixed sized) {b : UInt8} {n : Nat} :
    lengthOf (.ofByte b) = some (.inl n) ↔ (b, n) ∈ fixed := by
  refine ⟨fun hb => ?_, h.of_fixed _⟩
  have honly := h.only b
  simpa [hb, listed] using honly

theorem Tabulates.mem_sized (h : Tabulates lengthOf fixed sized) {b : UInt8} {width : Nat} :
    lengthOf (.ofByte b) = some (.inr width) ↔ (b, width) ∈ sized := by
  refine ⟨fun hb => ?_, h.of_sized _⟩
  have honly := h.only b
  simpa [hb, listed] using honly

theorem header_cons_iff {b : UInt8} {bs : Bytes} {n : Nat} :
    Header fixed sized (b :: bs) n ↔
      bs = [] ∧ (b, n) ∈ fixed ∨ (b, bs.length) ∈ sized ∧ n = Bytes.toNat bs := by
  refine ⟨?_, ?_⟩
  · rintro (hfixed | ⟨hsized, hdigits⟩)
    · exact .inl ⟨rfl, hfixed⟩
    · exact .inr ⟨hdigits ▸ hsized, rfl⟩
  · rintro (⟨rfl, hfixed⟩ | ⟨hsized, rfl⟩)
    · exact .fixed hfixed
    · exact .sized hsized rfl

theorem header_ne_nil {bs : Bytes} {n : Nat} (h : Header fixed sized bs n) : bs ≠ [] := by
  cases h <;> exact List.cons_ne_nil _ _

theorem header_byFirst :
    (Language.byFirst fun b bs n => Header fixed sized (b :: bs) n) = Header fixed sized := by
  funext bs n
  refine propext ⟨?_, ?_⟩
  · rintro ⟨b, rest, rfl, h⟩
    exact h
  · rintro (hfixed | ⟨hsized, hdigits⟩)
    · exact ⟨_, _, rfl, .fixed hfixed⟩
    · exact ⟨_, _, rfl, .sized hsized hdigits⟩

theorem accepts_length (h : Tabulates lengthOf fixed sized) (expected : Expected) :
    Accepts (length expected lengthOf) (Header fixed sized) := by
  rw [← header_byFirst]
  refine AcceptsAt.marker_bind fun b => ?_
  cases hb : lengthOf (.ofByte b) with
  | none =>
      refine (AcceptsAt.throw _).congr fun bs n => ?_
      rw [header_cons_iff, ← h.mem_fixed, ← h.mem_sized, hb]
      simp
  | some found =>
      cases found with
      | inl k =>
          refine (AcceptsAt.after (.pure k)).congr fun bs n => ?_
          rw [header_cons_iff, ← h.mem_fixed, ← h.mem_sized, hb]
          simp [Language.unit, eq_comm]
      | inr width =>
          refine (AcceptsAt.after (accepts_number width)).congr fun bs n => ?_
          rw [header_cons_iff, ← h.mem_fixed, ← h.mem_sized, hb, Language.image_ofLength]
          simp [eq_comm]

end Length

theorem textLength_tabulates :
    Tabulates textLength Grammar.fixstrTags Grammar.strTags where
  of_fixed := by decide
  of_sized := by decide
  only := forall_byte (by decide)

theorem binaryLength_tabulates : Tabulates binaryLength [] Grammar.binTags where
  of_fixed := by decide
  of_sized := by decide
  only := forall_byte (by decide)

theorem extensionLength_tabulates :
    Tabulates extensionLength Grammar.fixextTags Grammar.extTags where
  of_fixed := by decide
  of_sized := by decide
  only := forall_byte (by decide)

theorem arrayLength_tabulates :
    Tabulates arrayLength Grammar.fixarrayTags Grammar.arrayTags where
  of_fixed := by decide
  of_sized := by decide
  only := forall_byte (by decide)

theorem mapLength_tabulates : Tabulates mapLength Grammar.fixmapTags Grammar.mapTags where
  of_fixed := by decide
  of_sized := by decide
  only := forall_byte (by decide)

theorem accepts_textHeader : Accepts textHeader TextHeader :=
  accepts_length textLength_tabulates .string

theorem accepts_binaryHeader : Accepts binaryHeader BinaryHeader :=
  accepts_length binaryLength_tabulates .binary

theorem accepts_arrayHeader : Accepts arrayHeader ArrayHeader :=
  accepts_length arrayLength_tabulates .array

theorem accepts_mapHeader : Accepts mapHeader MapHeader :=
  accepts_length mapLength_tabulates .map

/-! ### Payloads -/

theorem Lends.guard {g : Get Payload} {L : Language Bytes} (hg : Lends g L)
    (valid : Bytes → Bool) (e : Error) :
    Lends (do let p ← g; if valid p.bytes then return p else throw e)
      fun bs c => L bs c ∧ valid c where
  complete := by
    rintro s bs rest c hl ⟨hc, hv⟩
    obtain ⟨p, hp, rfl, hgs⟩ := hg.complete hl hc
    refine ⟨p, hp, rfl, ?_⟩
    rw [bind_of_ok hgs, if_pos hv]
    rfl
  sound := by
    intro s t p h
    obtain ⟨q, u, hgu, hq⟩ := bind_eq_ok_iff.mp h
    obtain ⟨bs, rest, hl, hc, rfl⟩ := hg.sound hgu
    split at hq
    · next hv =>
        obtain ⟨rfl, rfl⟩ := EStateM.Result.ok.inj hq
        exact ⟨bs, rest, hl, ⟨hc, hv⟩, rfl⟩
    · simp at hq

/-- A text behind its header. -/
abbrev TextForm : Language Bytes :=
  TextHeader.seq fun n bs c => Language.ofLength n bs c ∧ Utf8.isValid c

abbrev BinaryForm : Language Bytes := BinaryHeader.seq Language.ofLength

/-- The length of an extension and its type code. -/
abbrev ExtensionPrefix : Language (Int8 × Nat) :=
  fun bs e => ∃ header, ExtensionHeader header e.2 ∧ bs = header ++ [e.1.toUInt8]

abbrev ExtensionForm : Language (Int8 × Bytes) :=
  ExtensionPrefix.seq fun e => (Language.ofLength e.2).image (e.1, ·)

theorem lends_text : Lends text TextForm :=
  accepts_textHeader.lends fun n => (lends_read n).guard Utf8.isValid _

theorem lends_binary : Lends binary BinaryForm :=
  accepts_binaryHeader.lends lends_read

theorem accepts_extensionHeader : Accepts extensionHeader ExtensionPrefix := by
  have hbind : Accepts extensionHeader (ExtensionHeader.seq fun n =>
      ((Language.ofLength 1).image Bytes.toNat).seq fun type =>
        .unit ((UInt8.ofNat type).toInt8, n)) :=
    (accepts_length extensionLength_tabulates .extension).bind fun n =>
      (accepts_number 1).bind fun type => .pure ((UInt8.ofNat type).toInt8, n)
  refine hbind.congr fun bs e => ⟨?_, ?_⟩
  · rintro ⟨header, tail, n, rfl, hheader, type, _, k, rfl, htype, rfl, rfl⟩
    obtain ⟨hlen, rfl⟩ := Language.image_ofLength.mp htype
    obtain ⟨b, rfl⟩ := List.length_eq_one_iff.mp hlen
    exact ⟨header, hheader, by simp [Bytes.toNat_cons]⟩
  · rintro ⟨header, hheader, rfl⟩
    refine ⟨header, [e.1.toUInt8], e.2, rfl, hheader, [e.1.toUInt8], [],
      Bytes.toNat [e.1.toUInt8], rfl, ?_, rfl, ?_⟩
    · exact Language.image_ofLength.mpr ⟨rfl, rfl⟩
    · simp [Bytes.toNat_cons]

theorem accepts_extension {α : Type} {f : Int8 × Payload → Get α}
    {M : Int8 × Bytes → Language α}
    (hf : ∀ type p, Accepts (f (type, p)) (M (type, p.bytes))) :
    Accepts (extension >>= f) (ExtensionForm.seq M) := by
  have hassoc : extension >>= f =
      extensionHeader >>= fun e => read e.2 >>= fun p => f (e.1, p) := by
    simp only [extension, bind_assoc, pure_bind]
  rw [hassoc]
  refine (accepts_extensionHeader.bind fun e =>
    (lends_read e.2).bind (M := fun c => M (e.1, c)) fun p => hf e.1 p).congr
      fun bs a => ⟨?_, ?_⟩
  · rintro ⟨header, _, e, rfl, hheader, content, tail, c, rfl, hc, ha⟩
    exact ⟨header ++ content, tail, (e.1, c), by simp,
      ⟨header, content, e, rfl, hheader, c, hc, rfl⟩, ha⟩
  · rintro ⟨_, tail, _, rfl, ⟨header, content, e, rfl, hheader, c, hc, rfl⟩, ha⟩
    exact ⟨header, content ++ tail, e, by simp, hheader, content, tail, c, rfl, hc, ha⟩

/-- The payload of an extension is lent as others are. -/
theorem extension_of_left {s : Source} {header content rest : Bytes} {type : Int8}
    (hheader : ExtensionHeader header content.length)
    (hl : s.left = header ++ type.toUInt8 :: content ++ rest) :
    ∃ p, (s.kind = .memory → p.borrowed = true) ∧ p.bytes = content ∧
      extension s = .ok (type, p) (s.advance (header ++ type.toUInt8 :: content).length) := by
  have hl' : s.left = (header ++ [type.toUInt8]) ++ (content ++ rest) := by simp [hl]
  have hprefix := accepts_extensionHeader.complete (a := (type, content.length)) hl'
    ⟨header, hheader, rfl⟩
  obtain ⟨p, hp, hbytes, hread⟩ := (lends_read content.length).complete
    (Source.left_advance_length hl') ⟨rfl, rfl⟩
  refine ⟨p, hp, hbytes, (bind_of_ok hprefix).trans ((bind_of_ok hread).trans ?_)⟩
  rw [Source.advance_advance, ← List.length_append, List.append_assoc]
  rfl

end MsgPack.Get
