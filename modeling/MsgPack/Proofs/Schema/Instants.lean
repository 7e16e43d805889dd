import MsgPack.Archive
import MsgPack.Proofs.Cursor.Reads
import MsgPack.Proofs.Schema.Layers
import MsgPack.Proofs.Wire.Finding
import MsgPack.Proofs.Writer.WellFormed

/-!
Instants there and back. The direct encoding and the archive of an instant are
the same bytes, and every instant that the clock counts has them. Readers stop
short of that: instants less than two seconds from either end of the clock are
read to their last byte and then refused.
-/

namespace MsgPack

namespace Instant

variable {u : TimeUnit}

/-- The instants that come back, by their nanoseconds. -/
theorem trusted_iff (t : Instant u) :
    t.Trusted ↔
      -9223372035000000000 ≤ t.toNanos.count ∧ t.toNanos.count < 9223372036000000000 := by
  have hspec := t.toNanos.split_spec
  simp only [Trusted, Timestamp.clockLimit, nanosPerSecond] at *
  omega

/-- The extension that an instant is written as. -/
def stamp (t : Instant u) : Extension := (Timestamp.smallest t.toNanos).2.toExtension

theorem put_eq (t : Instant u) : Put.instant t = Put.extension t.stamp := rfl

theorem length_stamp_le (t : Instant u) : t.stamp.data.length ≤ Put.maxLength :=
  (Timestamp.smallest t.toNanos).2.length_toExtension_le

/-- An archive in any policy is the direct encoding. -/
theorem archive_eq (t : Instant u) (policy : EncodePolicy) :
    (Schema.instant u).archive policy .buffer t =
      .ok () (Serializer.extend (.ofSink policy .buffer) [] (Put.bytes (Put.instant t))) :=
  Serializer.run_of_tree policy ((Schema.instant u).tells_plain rfl t) t.length_stamp_le

/-- An archive is read as an extension of any sort, and looked at after that. -/
theorem restore_eq (t : Instant u) {c : Cursor} {rest : Bytes}
    (hreadable : Cursor.Readable c.frames)
    (hleft : c.source.left = Put.bytes (Put.instant t) ++ rest) (initial : Instant u) :
    (Schema.instant u).restore initial c = Get.ofExcept t.reread { c with
      source := c.source.advance (Put.bytes (Put.instant t)).length
      frames := c.frames.modifyHead Frame.stepped } := by
  obtain ⟨header, hput, hheader⟩ := Put.extension_eq t.length_stamp_le
  have hbytes : Put.bytes (Put.instant t) = header ++ t.stamp.data := by
    rw [put_eq, hput, Put.bytes_runAll]
    simp
  rw [hbytes] at hleft ⊢
  have hextension : Cursor.extension .owned c = .ok t.stamp { c with
      source := c.source.advance (header ++ t.stamp.data).length
      frames := c.frames.modifyHead Frame.stepped } :=
    Cursor.leaf_of_ok hreadable (Get.findsOn_extension (.inr rfl) hheader c.source rest rfl hleft)
  have hlook : Timestamp.instantOfExtension u t.stamp = t.reread :=
    Timestamp.instantOfExtension_smallest t
  rw [← hlook]
  exact bind_of_ok hextension

/-- Every instant of the clock, in any unit, is written: its direct encoding
and its archive in any policy are the same bytes, in the smallest layout of a
timestamp. The readers of both take all of them, from memory and from streams,
whatever follows, and give the instant back exactly if the clock is trusted with
its seconds; the others are refused as beyond the clock. -/
theorem written_and_reread (t : Instant u) :
    (t.Trusted ↔
      -9223372035000000000 ≤ t.toNanos.count ∧ t.toNanos.count < 9223372036000000000) ∧
    ∃ bs : Bytes,
      (∀ s : Sink, s.kind = .buffer → Put.instant t s = .ok bs.length (s.append bs)) ∧
      (∀ policy, ∃ archived, (Schema.instant u).archive policy .buffer t = .ok () archived ∧
        archived.sink.out.toList = bs) ∧
      ∀ (kind : SourceKind) (rest : Bytes),
        Get.run (Get.instant u) kind (bs ++ rest) =
          Get.ofExcept t.reread { kind, left := rest, position := bs.length } ∧
        ∀ policy, ∃ c, (Schema.instant u).restoreFrom policy kind (bs ++ rest) =
            Get.ofExcept t.reread c ∧
          c.source = { kind, left := rest, position := bs.length } ∧ c.frames = [] := by
  obtain ⟨header, content, hput, hread⟩ := Get.instant_written t
  have hwrites : Put.Writes (Put.instant t) (header ++ content) := .pair hput
  have hbytes := hwrites.bytes_eq
  refine ⟨t.trusted_iff, header ++ content, fun s hs => hwrites.buffer hs, fun policy => ?_,
    fun kind rest => ?_⟩
  · refine ⟨_, t.archive_eq policy, ?_⟩
    rw [Serializer.out_extend, hbytes]
  · have hafter : (Source.ofBytes kind (header ++ content ++ rest)).advance
        (header ++ content).length =
        { kind, left := rest, position := (header ++ content).length } := by
      simp [Source.advance, Source.ofBytes]
    refine ⟨?_, fun policy => ?_⟩
    · show Get.instant u (.ofBytes kind (header ++ content ++ rest)) = _
      rw [hread _ rest rfl, hafter]
    · let c := Cursor.ofBytes policy kind (header ++ content ++ rest)
      have hleft : c.source.left = Put.bytes (Put.instant t) ++ rest := by
        rw [hbytes]
        rfl
      have hrestore := t.restore_eq (c := c) trivial hleft (.epoch u)
      rw [hbytes] at hrestore
      exact ⟨_, hrestore, hafter, rfl⟩

/-- The last instant of the clock, which is written in the packed layout. -/
theorem last_not_reread :
    let last : Instant .nanoseconds := ⟨9223372036854775807, by decide⟩
    ∃ out, Put.instant last { kind := .buffer } = .ok 10 out ∧
      Get.run (Get.instant .nanoseconds) .memory out.out.toList =
        .error (.invalidData (.beyondClock 9223372036))
          { kind := .memory, left := [], position := 10 } :=
  ⟨_, rfl, rfl⟩

end Instant

end MsgPack
