import MsgPack.Proofs.Cursor.Following
import MsgPack.Proofs.Cursor.Keeping

/-!
Trying another kind. A reader of a single entity that finds one of another
format leaves it where it is, and a call on a cursor leaves the open scopes as
they were as well, so that the caller may go on as if nothing had been tried.
-/

namespace MsgPack

namespace Get

variable {α β : Type} {g : Get α}

/-! ### Readers of entities -/

theorem hard_ofExcept {x : Except Error α} (h : Complains false x) : Hard (ofExcept x) := by
  cases x with
  | ok a => exact hard_pure a
  | error e =>
      rintro s t e ⟨⟩
      obtain he | ⟨-, hstamp⟩ := h _ rfl
      · rw [he]
        exact ⟨ErrorKind.noConfusion, ErrorKind.noConfusion⟩
      · cases hstamp

theorem mild_extensionHeader : Mild extensionHeader :=
  (mild_length _ _).bind fun _ => (hard_number 1).bind fun _ => hard_pure _

theorem length_of_read {s t : Source} {n : Nat} {p : Payload} (h : read n s = .ok p t) :
    p.bytes.length = n := by
  obtain ⟨_, _, _, ⟨hlen, rfl⟩, _⟩ := (lends_read n).sound h
  exact hlen

/-- The length that a marker holds is the one that is read. -/
theorem length_of_marker {expected : Expected} {lengthOf : Marker → Option (Nat ⊕ Nat)}
    {s t : Source} {m : Marker} {n k : Nat} (hmarker : marker s = .ok m s)
    (hlength : lengthOf m = some (.inl n)) (h : length expected lengthOf s = .ok k t) :
    k = n := by
  rw [length, bind_of_ok hmarker, hlength] at h
  obtain ⟨_, _, _, hpure⟩ := bind_eq_ok_iff.mp h
  cases hpure
  rfl

/-- Behind the marker of a timestamp comes a payload that has the size of the
layout, where the size decides about the format. -/
theorem sized_of_marker {l : TimestampLayout} {s t : Source} {m : Marker} {type : Int8} {n : Nat}
    (hmarker : marker s = .ok m s) (hcode : m.code = l.typecode)
    (h : extensionHeader s = .ok (type, n) t) : l = .wide96 ∨ n = l.payloadSize := by
  obtain ⟨k, u, hlength, hrest⟩ := bind_eq_ok_iff.mp h
  obtain ⟨_, _, _, hpure⟩ := bind_eq_ok_iff.mp hrest
  cases hpure
  cases l with
  | seconds32 =>
      exact .inr (length_of_marker hmarker (by rw [extensionLength, hcode]; rfl) hlength)
  | packed64 =>
      exact .inr (length_of_marker hmarker (by rw [extensionLength, hcode]; rfl) hlength)
  | wide96 => exact .inl rfl

theorem mild_timestamp (l : TimestampLayout) : Mild (timestamp l) := by
  intro s t e h
  obtain hmarker | ⟨m, s', hmarker, hread⟩ := bind_eq_error_iff.mp h
  · exact .inr (hard_marker _ _ _ hmarker)
  obtain rfl := still_marker _ _ _ hmarker
  by_cases hcode : m.code = l.typecode
  · rw [if_pos hcode] at hread
    -- the size of what follows the header is known to be right before it is read
    obtain hheader | ⟨⟨type, n⟩, u, hheader, hrest⟩ := bind_eq_error_iff.mp hread
    · exact mild_extensionHeader _ _ _ hheader
    have hsize := sized_of_marker hmarker hcode hheader
    obtain htype | ⟨_, u', -, hrest⟩ := bind_eq_error_iff.mp hrest
    · exact .inr (hard_ofExcept (complains_checkType type) _ _ _ htype)
    obtain hread | ⟨p, u'', hread, hrest⟩ := bind_eq_error_iff.mp hrest
    · exact .inr (hard_read n _ _ _ hread)
    have hlen : (Extension.mk type p.bytes).data.length = n := length_of_read hread
    have hsized : Complains false (Timestamp.ofExtension l ⟨type, p.bytes⟩) :=
      complains_ofExtension l _ (hsize.imp_right fun hn => .inl (hlen.trans hn))
    exact .inr (hard_ofExcept hsized _ _ _ hrest)
  · rw [if_neg hcode] at hread
    exact mild_refuse _ m _ _ _ hread

theorem mild_instant (u : TimeUnit) : Mild (instant u) := by
  have hstamp (l : TimestampLayout) : Mild (do
      let t ← ofExcept (← timestamp l).toInstant
      return t.truncate u) :=
    (mild_timestamp l).bind fun t =>
      (hard_ofExcept (complains_toInstant t)).bind fun _ => hard_pure _
  have hother (m : Marker) : Mild (do
      let t ← refuse .timestamp m
      return Instant.truncate u t) :=
    (mild_refuse _ m).bind fun _ => hard_pure _
  refine mild_marker_bind fun m => ?_
  cases hcode : m.code with
  | fixext4 => exact hstamp .seconds32
  | fixext8 => exact hstamp .packed64
  | ext8 => exact hstamp .wide96
  | _ => exact hother m

theorem mild_fixedExtension (capacity : Nat) :
    Mild (do
      let (type, n) ← extensionHeader
      if n ≤ capacity then
        let p ← read n
        ofExcept (FixedExtension.ofExtension capacity ⟨type, p.bytes⟩)
      else
        throw (.invalidData (.extensionCapacity n capacity))) := by
  refine mild_extensionHeader.bind fun header => ?_
  dsimp only
  split
  · exact (hard_read _).bind fun p => hard_ofExcept (complains_fixedExtension capacity _)
  · exact hard_invalidData _

end Get

/-- The readers of single entities: those of all leaves, numbers by any policy,
and headers. -/
inductive EntityReader : {α : Type} → Get α → Prop
  | direct (s : Schema) (hleaf : s.isLeaf = true) (hplain : s.plain = true) :
      EntityReader (s.decode hplain)
  | int (policy : DecodePolicy) (t : IntType) : EntityReader (policy.int t)
  | float (policy : DecodePolicy) (p : Precision) : EntityReader (policy.float p)
  | textHeader : EntityReader Get.textHeader
  | binaryHeader : EntityReader Get.binaryHeader
  | extensionHeader : EntityReader Get.extensionHeader
  | arrayHeader : EntityReader Get.arrayHeader
  | mapHeader : EntityReader Get.mapHeader

theorem Schema.mild_decode {s : Schema} (hleaf : s.isLeaf = true) (hplain : s.plain = true) :
    (s.decode hplain).Mild := by
  cases s with
  | nil => exact Get.mild_nil
  | bool => exact Get.mild_bool
  | int t initial => exact Get.mild_exactInt t
  | float p => exact Get.mild_exactFloat p
  | number => exact Get.mild_anyNumber
  | text storage initial => exact (Get.ofLeaves_text storage).mild
  | binary storage => exact (Get.ofLeaves_binary storage).mild
  | extension storage => exact (Get.ofLeaves_extension storage).mild
  | fixedExtension capacity => exact Get.mild_fixedExtension capacity
  | timestamp l => exact Get.mild_timestamp l
  | instant u => exact Get.mild_instant u
  | carried t => cases hplain
  | char => cases hplain
  | _ => cases hleaf

theorem EntityReader.mild {α : Type} {g : Get α} (h : EntityReader g) : g.Mild := by
  cases h with
  | direct s hleaf hplain => exact Schema.mild_decode hleaf hplain
  | int policy t => exact (Get.ofLeaves_int policy t).mild
  | float policy p => exact (Get.ofLeaves_float policy p).mild
  | textHeader => exact Get.mild_length _ _
  | binaryHeader => exact Get.mild_length _ _
  | extensionHeader => exact Get.mild_extensionHeader
  | arrayHeader => exact Get.mild_length _ _
  | mapHeader => exact Get.mild_length _ _

/-! ### Calls -/

namespace Cursor

variable {α : Type} {g : Get α} {c c' : Cursor} {e : Error}

/-- The calls that read the next entity or look at it. Numbers are read as the
policy of the cursor has it. -/
inductive EntityCall : {α : Type} → Step α → Prop
  | leaf {α : Type} {g : Get α} (h : LeafReader False g) : EntityCall (leaf g)
  | int (t : IntType) : EntityCall (do leaf ((← get).policy.int t))
  | float (p : Precision) : EntityCall (do leaf ((← get).policy.float p))
  | enter (kind : Container) : EntityCall (beginScope kind)
  | look : EntityCall typeNext

theorem leaf_mismatch (hg : g.Mild) (h : leaf g c = .error e c')
    (he : e.kind = .unexpectedFormat) : c' = c := by
  by_cases hreadable : Readable c.frames
  · cases hsource : g c.source with
    | ok a t => cases (leaf_of_ok hreadable hsource).symm.trans h
    | error e' t =>
        cases (leaf_of_error hreadable hsource).symm.trans h
        obtain ⟨-, rfl⟩ | ⟨hne, -⟩ := hg _ _ _ hsource
        · rfl
        · exact absurd he hne
  · obtain ⟨misuse, hmisuse⟩ := checkReadable_of_not_readable hreadable
    cases (bind_of_error hmisuse).symm.trans h
    rfl

theorem beginScope_mismatch {kind : Container} (h : beginScope kind c = .error e c')
    (he : e.kind = .unexpectedFormat) : c' = c := by
  by_cases hreadable : Readable c.frames
  · cases hheader : headerOf kind c.source with
    | ok n t =>
        -- the header has been taken, and only the depth may still be complained about
        rw [beginScope_of_ok hreadable hheader] at h
        by_cases hroom : (c.frames.modifyHead Frame.stepped).length < c.maxDepth
        · cases (pushFrame_of_room kind (places kind n) hroom).symm.trans h
        · cases (pushFrame_of_full kind (places kind n) (Nat.le_of_not_lt hroom)).symm.trans h
          cases he
    | error e' t =>
        cases (beginScope_of_error hreadable hheader).symm.trans h
        obtain ⟨-, rfl⟩ | ⟨hne, -⟩ := mild_headerOf kind _ _ _ hheader
        · rfl
        · exact absurd he hne
  · obtain ⟨misuse, hmisuse⟩ := checkReadable_of_not_readable hreadable
    have hbegin : beginScope kind c = .error (.readerContext misuse) c := by
      cases kind <;> exact bind_of_error hmisuse
    cases hbegin.symm.trans h
    rfl

theorem Looks.unchanged {step : Step α} (hlooks : Looks step) (h : step c = .error e c') :
    c' = c := by
  obtain ⟨a, hstep⟩ | ⟨e', hstep⟩ := hlooks c
  · cases hstep.symm.trans h
  · cases hstep.symm.trans h
    rfl

theorem Looks.unmoved {step : Step α} {a : α} (hlooks : Looks step) (h : step c = .ok a c') :
    c' = c := by
  obtain ⟨a', hstep⟩ | ⟨e, hstep⟩ := hlooks c
  · cases hstep.symm.trans h
    rfl
  · cases hstep.symm.trans h

theorem EntityCall.mismatch {step : Step α} (hstep : EntityCall step)
    (h : step c = .error e c') (he : e.kind = .unexpectedFormat) : c' = c := by
  cases hstep with
  | leaf hg => exact leaf_mismatch hg.ofLeaves.mild h he
  | int t => exact leaf_mismatch (Get.ofLeaves_int c.policy t).mild h he
  | float p => exact leaf_mismatch (Get.ofLeaves_float c.policy p).mild h he
  | enter kind => exact beginScope_mismatch h he
  | look => exact Looks.typeNext.unchanged h

end Cursor

/-- When the step finds something of another format, nothing has changed, and
whatever is done instead goes as if the step had not been tried. -/
def Retryable {σ α : Type} (step : EStateM Error σ α) : Prop :=
  ∀ (s t : σ) (e : Error), step s = .error e t → e.kind = .unexpectedFormat →
    t = s ∧ ∀ {β : Type} (f : α → EStateM Error σ β) (other : EStateM Error σ β),
      (do try f (← step) catch _ => other) s = other s

theorem retryable_of_unchanged {σ α : Type} {step : EStateM Error σ α}
    (h : ∀ (s t : σ) (e : Error), step s = .error e t → e.kind = .unexpectedFormat → t = s) :
    Retryable step := by
  intro s t e hstep he
  obtain rfl := h s t e hstep he
  exact ⟨rfl, fun _ _ => tryCatch_of_error (bind_of_error hstep)⟩

/-- The readers of single entities, on every source, and the calls that read
one, in every scope that a cursor may be in. -/
theorem entities_retryable :
    (∀ {α : Type} {g : Get α}, EntityReader g → Retryable g) ∧
      ∀ {α : Type} {step : Cursor.Step α}, Cursor.EntityCall step → Retryable step := by
  refine ⟨fun {α g} hg => ?_, fun {α step} hstep => ?_⟩
  · refine retryable_of_unchanged fun s t e hread he => ?_
    obtain ⟨-, ht⟩ | ⟨hne, -⟩ := hg.mild s t e hread
    · exact ht
    · exact absurd he hne
  · exact retryable_of_unchanged fun c c' e hread he => hstep.mismatch hread he

/-- The last element of an array, the text "a". -/
def lastText : Cursor :=
  { source := ⟨.memory, [0xa1, 0x61], 1⟩, frames := [.opened .array 1 1], lastId := 1 }

/-- A text that was taken for an integer is read as a text all the same. -/
theorem entities_retryable_lastText :
    ∃ e, Cursor.leaf (DecodePolicy.widening.int .u8) lastText = .error e lastText ∧
      e.kind = .unexpectedFormat ∧
      (do
        try
          let i ← Cursor.leaf (DecodePolicy.widening.int .u8)
          pure ([UInt8.ofNat i.val.toNat] : Bytes)
        catch _ => Cursor.text .owned) lastText = Cursor.text .owned lastText :=
  ⟨.unexpectedFormat (.marker .integer (.ofByte 0xa1)), rfl, rfl,
    (entities_retryable.2 (.leaf (.int .widening .u8)) _ _ _ rfl rfl).2 _ _⟩

end MsgPack
