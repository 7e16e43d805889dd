import MsgPack.Proofs.Timestamp
import MsgPack.Proofs.Wire.Scalars
import MsgPack.Proofs.Wire.Writing
import MsgPack.Wire.Timestamp

/-!
Readers that take what their own writers have written, whatever follows it. An
integer or a float is looked for under the one tag that its type is written
with, a timestamp under the one marker of its layout, and so it matters which
of the encodings that the grammar has for a value a writer chooses.
-/

namespace MsgPack

open Grammar (Numeral TextHeader BinaryHeader ExtensionHeader)
open Put (maxLength runAll)

/-- Whether sources of that kind have content to be kept in this manner: only
memory lends it. -/
def SourceKind.Serves (kind : SourceKind) (storage : Storage) : Prop :=
  kind = .memory ∨ storage = .owned

/-- What memory lends can be taken in either manner. -/
theorem Storage.take_lent (storage : Storage) {p : Payload} (hp : p.borrowed = true) :
    storage.take p = pure p.bytes := by
  cases storage with
  | owned => rfl
  | borrowed =>
      have hborrow : Get.borrow p = pure p.view := if_pos hp
      show (Get.borrow p >>= fun v => pure v.toBytes) = _
      rw [hborrow]
      rfl

theorem Storage.take_served {kind : SourceKind} {storage : Storage} (h : kind.Serves storage)
    {p : Payload} (hp : kind = .memory → p.borrowed = true) : storage.take p = pure p.bytes := by
  rcases h with hk | rfl
  · exact storage.take_lent (hp hk)
  · rfl

namespace Get

variable {α β : Type} {kind : SourceKind} {g : Get α} {bs bs' header content : Bytes} {a : α}

/-- The successes of `g` on sources of one kind that begin with the string. -/
def FindsOn (kind : SourceKind) (g : Get α) : Language α := fun bs a =>
  ∀ (s : Source) (rest : Bytes), s.kind = kind → s.left = bs ++ rest →
    g s = .ok a (s.advance bs.length)

theorem Accepts.findsOn {L : Language α} (h : Accepts g L) (ha : L bs a) : FindsOn kind g bs a :=
  fun _ _ _ hl => h.complete hl ha

namespace FindsOn

theorem pure (a : α) : FindsOn kind (pure a) [] a := fun _ _ _ _ => rfl

theorem bind {f : α → Get β} {b : β} (h : FindsOn kind g bs a) (hf : FindsOn kind (f a) bs' b) :
    FindsOn kind (g >>= f) (bs ++ bs') b := by
  intro s rest hk hl
  rw [List.append_assoc] at hl
  rw [bind_of_ok (h s _ hk hl), hf (s.advance bs.length) rest hk (Source.left_advance_length hl),
    Source.advance_advance, List.length_append]

/-- What is done with what was found takes no further bytes. -/
theorem looked {f : α → Get β} {b : β} (h : FindsOn kind g bs a) (hf : f a = Pure.pure b) :
    FindsOn kind (g >>= f) bs b := by
  have hpure : FindsOn kind (f a) [] b := hf ▸ pure b
  have hbind := h.bind hpure
  rwa [List.append_nil] at hbind

theorem map (h : FindsOn kind g bs a) (f : α → β) : FindsOn kind (do return f (← g)) bs (f a) :=
  h.looked rfl

theorem collect {n : Nat} {as : List α} (h : Language.repeated (FindsOn kind g) n bs as) :
    FindsOn kind (collect g n) bs as := by
  induction n generalizing bs as with
  | zero =>
      obtain ⟨rfl, rfl⟩ := h
      exact .pure []
  | succ n ih =>
      obtain ⟨head, tail, a, rfl, ha, as, has, rfl⟩ := h
      rw [collect_succ]
      exact ha.bind ((ih has).map (a :: ·))

/-- A look at the first byte settles how to go on. -/
theorem marker {f : Marker → Get α} {b : UInt8} (h : FindsOn kind (f (.ofByte b)) (b :: bs) a) :
    FindsOn kind (marker >>= f) (b :: bs) a := by
  intro s rest hk hl
  rw [bind_of_ok (marker_cons hl)]
  exact h s rest hk hl

theorem after {b : UInt8} (h : FindsOn kind g bs a) : FindsOn kind (after g) (b :: bs) a := by
  intro s rest hk hl
  have hl' : (s.advance 1).left = bs ++ rest := by simp [hl]
  rw [after_cons hl, h (s.advance 1) rest hk hl', Source.advance_advance, List.length_cons, Nat.add_comm]

end FindsOn

/-- What is done with a payload may depend on how the source came by it. -/
theorem Lends.findsOn {g : Get Payload} {L : Language Bytes} {f : Payload → Get α}
    (h : Lends g L) (hc : L bs content)
    (hf : ∀ p : Payload, (kind = .memory → p.borrowed = true) → p.bytes = content →
      f p = pure a) : FindsOn kind (g >>= f) bs a := by
  intro s rest hk hl
  obtain ⟨p, hp, hbytes, hg⟩ := h.complete hl hc
  rw [bind_of_ok hg, hf p (hk ▸ hp) hbytes]
  rfl

theorem Lends.findsOn_take {g : Get Payload} {L : Language Bytes} (h : Lends g L)
    (hc : L bs content) {storage : Storage} (hstorage : kind.Serves storage) :
    FindsOn kind (do storage.take (← g)) bs content := by
  refine h.findsOn hc fun p hp hbytes => ?_
  rw [storage.take_served hstorage hp, hbytes]

theorem findsOn_extension {storage : Storage} (hstorage : kind.Serves storage) {type : Int8}
    (hheader : ExtensionPrefix header (type, content.length)) :
    FindsOn kind (do let (type, p) ← extension; return (⟨type, ← storage.take p⟩ : Extension))
      (header ++ content) ⟨type, content⟩ := by
  simp only [extension, bind_assoc, pure_bind]
  refine (accepts_extensionHeader.findsOn hheader).bind ?_
  have hcontent := (lends_read content.length).findsOn_take ⟨rfl, rfl⟩ hstorage
  have h := hcontent.map (Extension.mk type)
  rwa [bind_assoc] at h

/-! ### Numbers in the encoding of their own type -/

theorem fixint_positiveFixint : ∀ n : Nat, n < 0x80 →
    fixint? .u8 (.ofByte (Marker.positiveFixint (UInt8.ofInt n)).toByte) = some (n : Int) := by
  decide

theorem fixint_negativeFixint : ∀ n : Nat, n < 0x21 → 1 ≤ n →
    fixint? .i8 (.ofByte (Marker.negativeFixint (UInt8.ofInt (-(n : Int)))).toByte) =
      some (-(n : Int)) := by
  decide

/-- A small integer is in the byte that stands for it. -/
theorem fixint_toByte {t : IntType} {i : t.Value} {m : Marker}
    (h : Put.fixint? t i.val = some m) : fixint? t (.ofByte m.toByte) = some i.val := by
  have hi := i.property
  cases t <;> simp only [Put.fixint?] at h
  case u8 =>
    split at h <;> cases h
    next hle =>
      obtain ⟨n, hn⟩ := Int.eq_ofNat_of_zero_le hi.1
      rw [hn]
      exact fixint_positiveFixint n (by omega)
  case i8 =>
    split at h <;> cases h
    next hrange =>
      obtain ⟨n, hn⟩ := Int.eq_ofNat_of_zero_le (show 0 ≤ -i.val by omega)
      have hval : i.val = -(n : Int) := by omega
      rw [hval]
      exact fixint_negativeFixint n (by omega) (by omega)
  all_goals cases h

theorem findsOn_exactInt (kind : SourceKind) (t : IntType) (i : t.Value) :
    ∃ bs, Put.int t i = runAll [bs] ∧ FindsOn kind (exactInt t) bs i := by
  have hwrap : t.wrap i.val = i := IntType.wrap_of_contains i.property
  rw [Put.int]
  cases h : Put.fixint? t i.val with
  | some m =>
      refine ⟨_, Put.marker_eq m, (accepts_exactInt t).findsOn ⟨m.toByte, [], rfl, ?_⟩⟩
      dsimp only [exactIntAfter]
      rw [fixint_toByte h]
      exact ⟨rfl, hwrap.symm⟩
  | none =>
      refine ⟨_, Put.scalar_eq .., (accepts_exactInt t).findsOn ⟨_, _, rfl, ?_⟩⟩
      have hfix : fixint? t (.ofByte t.typecode.toByte) = none := by cases t <;> rfl
      have hcode : (Marker.ofByte t.typecode.toByte).code = t.typecode := by cases t <;> rfl
      dsimp only [exactIntAfter]
      rw [hfix]
      dsimp only
      rw [if_pos hcode, Language.image_ofLength, Bytes.toNat_ofNat (t.toBits_lt i)]
      exact ⟨Bytes.length_ofNat .., (t.ofBits_toBits i).symm⟩

theorem findsOn_exactFloat (kind : SourceKind) (p : Precision) (x : FloatBits p) :
    ∃ bs, Put.float p x = runAll [bs] ∧ FindsOn kind (exactFloat p) bs x := by
  refine ⟨_, Put.scalar_eq .., (accepts_exactFloat p).findsOn ⟨_, _, rfl, ?_⟩⟩
  have hcode : (Marker.ofByte p.typecode.toByte).code = p.typecode := by cases p <;> rfl
  have hlt : x.toNat < 256 ^ p.bytes := by
    have h := x.toNat_lt
    cases p <;> exact h
  dsimp only [exactFloatAfter]
  rw [if_pos hcode, Language.image_ofLength, Bytes.toNat_ofNat hlt,
    FloatBits.ofNat_toNat]
  exact ⟨Bytes.length_ofNat .., rfl⟩

/-! ### Extensions with a meaning -/

theorem findsOn_fixedExtension (kind : SourceKind) {capacity : Nat}
    (e : FixedExtension capacity)
    (hheader : ExtensionPrefix header (e.ext.type, e.ext.data.length)) :
    FindsOn kind (do
      let (type, n) ← extensionHeader
      if n ≤ capacity then
        let p ← read n
        ofExcept (FixedExtension.ofExtension capacity ⟨type, p.bytes⟩)
      else
        throw (.invalidData (.extensionCapacity n capacity)))
      (header ++ e.ext.data) e := by
  refine (accepts_extensionHeader.findsOn hheader).bind ?_
  dsimp only
  rw [if_pos e.fits]
  refine (lends_read e.ext.data.length).findsOn ⟨rfl, rfl⟩ fun p _ hbytes => ?_
  have hok : FixedExtension.ofExtension capacity e.ext = .ok e := dif_pos e.fits
  rw [hbytes, hok]
  rfl

section Timestamps

variable {l : TimestampLayout}

/-- The marker of a timestamp is that of its layout, for which the size of the
layout is to blame. -/
theorem timestamp_eq (t : Timestamp l) :
    ∃ b rest, Put.timestamp t = runAll [b :: rest, t.toExtension.data] ∧
      (Marker.ofByte b).code = l.typecode ∧
      ExtensionPrefix (b :: rest) (t.toExtension.type, t.toExtension.data.length) := by
  have hlen := t.length_toExtension
  have hle : l.payloadSize ≤ maxLength := by cases l <;> decide
  have hmem := Put.extensionHeaderBytes_mem t.toExtension.type hle
  have hput : Put.extensionHeader t.toExtension.type t.toExtension.data.length =
      runAll [Put.extensionHeaderBytes t.toExtension.type l.payloadSize] := by
    rw [hlen, Put.extensionHeader, Put.checkLength_of_le hle, pure_bind]
    exact Put.run_eq_runAll _
  rw [hlen]
  cases l <;> exact ⟨_, _, Put.extension_runs hput, rfl, hmem⟩

theorem findsOn_timestamp (kind : SourceKind) (t : Timestamp l) {b : UInt8} {rest : Bytes}
    (hcode : (Marker.ofByte b).code = l.typecode)
    (hmark : ExtensionPrefix (b :: rest) (t.toExtension.type, t.toExtension.data.length)) :
    FindsOn kind (timestamp l) (b :: rest ++ t.toExtension.data) t := by
  refine .marker ?_
  rw [if_pos hcode]
  refine (accepts_extensionHeader.findsOn hmark).bind ?_
  have htype : Timestamp.checkType t.toExtension.type = .ok () := if_pos rfl
  dsimp only
  rw [htype]
  refine (lends_read t.toExtension.data.length).findsOn ⟨rfl, rfl⟩ fun p _ hbytes => ?_
  rw [hbytes, t.ofExtension_toExtension]
  rfl

/-- The marker tells which of the layouts an instant was written in. What was
written is read to its end, whether or not the clock is trusted with it. -/
theorem instant_written {u : TimeUnit} (t : Instant u) :
    ∃ header content, Put.instant t = runAll [header, content] ∧
      ∀ (s : Source) (rest : Bytes), s.left = header ++ content ++ rest →
        instant u s = ofExcept t.reread (s.advance (header ++ content).length) := by
  obtain ⟨l, stamp, hsmallest, hseconds, hnanos⟩ := Timestamp.smallest_parts t.toNanos
  obtain ⟨b, header, hput, hcode, hmark⟩ := timestamp_eq stamp
  refine ⟨b :: header, stamp.toExtension.data, ?_, fun s rest hl => ?_⟩
  · rw [Put.instant, hsmallest]
    exact hput
  · have hstamp := findsOn_timestamp s.kind stamp hcode hmark s rest rfl hl
    have hread : (do return (← ofExcept (← timestamp l).toInstant).truncate u) s =
        ofExcept t.reread (s.advance (b :: header ++ stamp.toExtension.data).length) := by
      rw [bind_of_ok hstamp, ← Timestamp.toInstant_truncate hseconds hnanos]
      cases stamp.toInstant <;> rfl
    rw [instant, bind_of_ok (marker_cons hl), hcode]
    cases l <;> exact hread

theorem findsOn_instant (kind : SourceKind) {u : TimeUnit} (t : Instant u) (hclock : t.Trusted) :
    ∃ header content, Put.instant t = runAll [header, content] ∧
      FindsOn kind (instant u) (header ++ content) t := by
  obtain ⟨header, content, hput, hread⟩ := instant_written t
  have hreread : t.reread = .ok t := if_pos hclock
  refine ⟨header, content, hput, fun s rest _ hl => ?_⟩
  rw [hread s rest hl, hreread]
  rfl

end Timestamps

end Get

end MsgPack
