import MsgPack.Archive
import MsgPack.Proofs.Cursor.Reads
import MsgPack.Proofs.Schema.Leaves
import MsgPack.Proofs.Schema.Tree
import MsgPack.Proofs.Wire.Finding
import MsgPack.Proofs.Writer.WellFormed

/-!
Characters and the strings that spell them. The valid strings are those that
the encoder of characters puts together, a string holds one list of them, and a
character that is archived as a string of its own is read back from it.
-/

namespace MsgPack

namespace Utf8

theorem appendAll_singleton (out : Bytes) (cp : Nat) :
    appendAll out [cp] = (out ++ (encode? cp).getD [], [(encode? cp).isSome]) := by
  simp [appendAll]

theorem appendAll_of_isScalar {cp : Nat} (h : IsScalar cp) (out : Bytes) :
    appendAll out [cp] = (out ++ spelled [cp], [true]) := by
  have hcp := encode_of_isScalar h
  rw [appendAll_singleton, spelled_cons hcp, spelled_nil, List.append_nil, hcp]
  rfl

/-- Code points that are no scalar values, and no others, are reported and leave
what was there as it is. -/
theorem appendAll_eq_refused_iff (out : Bytes) (cp : Nat) :
    appendAll out [cp] = (out, [false]) ↔ ¬ IsScalar cp := by
  by_cases h : IsScalar cp
  · rw [appendAll_of_isScalar h]
    simp [h]
  · rw [appendAll_singleton, encode_of_not_isScalar h]
    simp [h]

end Utf8

/-! ### Characters in archives -/

namespace Schema

variable {ch : UInt32} {bs : Bytes}

theorem archive_char (h : Utf8.encode? ch.toNat = some bs) (policy : EncodePolicy) :
    char.archive policy .buffer ch =
      .ok () (Serializer.extend (.ofSink policy .buffer) [] (Put.bytes (Put.text bs))) := by
  have hshort : (Tree.text bs).Everywhere Tree.Short :=
    Nat.le_trans (Utf8.length_of_encode h) (by decide)
  exact Serializer.run_of_tree policy (.char h) hshort

theorem restore_char (h : Utf8.encode? ch.toNat = some bs) {c : Cursor} {rest : Bytes}
    (hreadable : Cursor.Readable c.frames)
    (hleft : c.source.left = Put.bytes (Put.text bs) ++ rest) (initial : UInt32) :
    char.restore initial c = .ok ch { c with
      source := c.source.advance (Put.bytes (Put.text bs)).length
      frames := c.frames.modifyHead Frame.stepped } := by
  have hshort : bs.length ≤ Put.maxLength := Nat.le_trans (Utf8.length_of_encode h) (by decide)
  obtain ⟨header, hput, hheader⟩ := Put.text_eq hshort
  have hbytes : Put.bytes (Put.text bs) = header ++ bs := by
    rw [hput, Put.bytes_runAll]
    simp
  rw [hbytes] at hleft ⊢
  have hform : Get.TextForm (header ++ bs) bs :=
    ⟨header, bs, bs.length, rfl, hheader, ⟨rfl, rfl⟩, Utf8.isValid_of_encode h⟩
  have htext : Cursor.text .owned c = .ok bs { c with
      source := c.source.advance (header ++ bs).length
      frames := c.frames.modifyHead Frame.stepped } :=
    Cursor.leaf_of_ok hreadable
      (Get.lends_text.findsOn_take hform (.inr rfl) c.source rest rfl hleft)
  have hchar : charOf bs = .ok ch := by
    rw [charOf, Utf8.single_of_encode h]
    exact congrArg Except.ok UInt32.ofNat_toNat
  show restoreChar c = _
  rw [restoreChar_eq, bind_of_ok htext, hchar]
  rfl

end Schema

namespace Utf8

/-- A string is valid exactly if it spells scalar values one behind the other.
They are known from it, and a single character is read from the strings that
spell one alone. Code points that are no scalar values are the ones that are
reported when they are appended, and they add nothing. So every scalar value
comes back from its archive, whatever stood in its place and whatever follows. -/
theorem isValid_iff_spelled :
    (∀ bs : Bytes, isValid bs ↔
      ∃ cps : List Nat, (∀ cp ∈ cps, IsScalar cp) ∧ spelled cps = bs) ∧
    (∀ cps : List Nat, (∀ cp ∈ cps, IsScalar cp) →
      (∀ cps' : List Nat, (∀ cp ∈ cps', IsScalar cp) → spelled cps' = spelled cps → cps' = cps) ∧
      ∀ cp, single? (spelled cps) = some cp ↔ cps = [cp]) ∧
    (∀ (out : Bytes) (cp : Nat),
      (appendAll out [cp] = (out, [false]) ↔ ¬ IsScalar cp) ∧
      (IsScalar cp → appendAll out [cp] = (out ++ spelled [cp], [true]))) ∧
    ∀ ch : UInt32, IsScalar ch.toNat →
      ∀ (policy : EncodePolicy) (reading : DecodePolicy) (kind : SourceKind) (initial : UInt32)
        (rest : Bytes),
        ∃ archived c, Schema.char.archive policy .buffer ch = .ok () archived ∧
          (Schema.char.restore initial).run
            (.ofBytes reading kind (archived.sink.out.toList ++ rest)) = .ok ch c ∧
          c.source.left = rest ∧ c.frames = [] := by
  refine ⟨fun bs => ⟨exists_spelled, ?_⟩, fun cps h => ⟨fun cps' h' => spelled_inj h' h,
    single_spelled_iff h⟩, fun out cp => ⟨appendAll_eq_refused_iff out cp,
    fun h => appendAll_of_isScalar h out⟩, ?_⟩
  · rintro ⟨cps, hcps, rfl⟩
    exact isValid_spelled hcps
  · intro ch h policy reading kind initial rest
    have hch := encode_of_isScalar h
    let bytes := Put.bytes (Put.text ((encode? ch.toNat).getD []))
    let before := Cursor.ofBytes reading kind (bytes ++ rest)
    have hrestore := Schema.restore_char (c := before) hch trivial rfl initial
    refine ⟨_, before.moved bytes.length [] 0, Schema.archive_char hch policy, ?_,
      Source.left_advance_length rfl, rfl⟩
    rw [Serializer.out_extend]
    exact hrestore

/-- The sign of the euro, and a surrogate. -/
theorem isValid_iff_spelled_euro :
    IsScalar 0x20ac ∧ ¬IsScalar 0xd800 ∧ spelled [0x20ac] = [0xe2, 0x82, 0xac] ∧
      isValid [0xe2, 0x82, 0xac] ∧ single? [0xe2, 0x82, 0xac] = some 0x20ac ∧
      appendAll [] [0xd800] = ([], [false]) := by
  have hscalar : ∀ cp ∈ [0x20ac], IsScalar cp := by decide
  have hspelled : spelled [0x20ac] = [0xe2, 0x82, 0xac] := by decide
  refine ⟨by decide, by decide, hspelled, ?_, ?_, ?_⟩
  · exact (isValid_iff_spelled.1 _).mpr ⟨[0x20ac], hscalar, hspelled⟩
  · exact hspelled ▸ ((isValid_iff_spelled.2.1 [0x20ac] hscalar).2 0x20ac).mpr rfl
  · exact (isValid_iff_spelled.2.2.1 [] 0xd800).1.mpr (by decide)

end Utf8

end MsgPack
