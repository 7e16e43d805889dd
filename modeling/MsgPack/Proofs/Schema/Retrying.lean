import MsgPack.Proofs.Cursor.Retrying
import MsgPack.Proofs.Cursor.Skipping

/-!
Trying another schema. An object that is read from a single entity is checked
once the entity has been taken, and what is then found to be of another format
is gone: an extension that was taken for a timestamp and has the size of none.
Everywhere else the input is as it was, and may be read as something else.
-/

namespace MsgPack

open Cursor (leaf typeNext)

namespace Schema

/-- The schemas of objects that are read from one entity or are absent. -/
inductive Sole : Schema → Prop
  | leaf {s : Schema} (h : s.isLeaf = true) : Sole s
  | option {s : Schema} (h : Sole s) : Sole (.option s)

/-- The extensions in which only the size is found to be wrong, and not to be a
defect. -/
def Missizes : Schema → Extension → Prop
  | .timestamp l, e =>
    e.type = Timestamp.extensionType ∧ l ≠ .wide96 ∧ e.data.length ≠ l.payloadSize
  | .instant _, e => ∀ l : TimestampLayout, e.data.length ≠ l.payloadSize
  | .option s, e => s.Missizes e
  | _, _ => False

end Schema

theorem Complains.kind_ne {α : Type} {x : Except Error α} {e : Error} (h : Complains false x)
    (hx : x = .error e) : e.kind ≠ .unexpectedFormat := by
  intro he
  obtain hdefect | ⟨-, hfalse⟩ := h e hx
  · cases hdefect.symm.trans he
  · cases hfalse

/-! ### Timestamps of another size -/

section Sizes

variable {l : TimestampLayout} {e : Extension}

theorem complains_ofExtension_of_sized (h : ¬ (Schema.timestamp l).Missizes e) :
    Complains false (Timestamp.ofExtension l e) := by
  by_cases htype : e.type = Timestamp.extensionType
  · refine complains_ofExtension l e ?_
    by_cases hwide : l = .wide96
    · exact .inl hwide
    · exact .inr (.inl (Decidable.byContradiction fun hsize => h ⟨htype, hwide, hsize⟩))
  · have hcheck : Timestamp.checkType e.type =
        .error (.invalidData (.timestampType e.type.toInt)) := if_neg htype
    show Complains false (Timestamp.checkType e.type >>= _)
    rw [hcheck]
    exact complains_invalidData _

theorem ofExtension_of_missized (h : (Schema.timestamp l).Missizes e) :
    Timestamp.ofExtension l e =
      .error (.unexpectedFormat (.timestampLength l.payloadSize e.data.length)) := by
  obtain ⟨htype, hwide, hsize⟩ := h
  have hcheck : Timestamp.checkType e.type = .ok () := if_pos htype
  have hfound : Timestamp.checkSize l e.data.length =
      .error (.unexpectedFormat (.timestampLength l.payloadSize e.data.length)) := by
    unfold Timestamp.checkSize
    rw [if_neg hsize]
    cases l with
    | wide96 => exact absurd rfl hwide
    | _ => rfl
  show (Timestamp.checkType e.type >>= fun _ => Timestamp.checkSize l e.data.length >>= _) = _
  rw [hcheck]
  show (Timestamp.checkSize l e.data.length >>= _) = _
  rw [hfound]
  rfl

theorem complains_instant_of_sized {u : TimeUnit} (h : ¬ (Schema.instant u).Missizes e) :
    Complains false (Timestamp.instantOfExtension u e) := by
  obtain ⟨l, hsize⟩ := Classical.not_forall.mp h
  exact complains_instantOfExtension u e (.inl ⟨l, Decidable.not_not.mp hsize⟩)

theorem instantOfExtension_of_missized {u : TimeUnit} (h : (Schema.instant u).Missizes e) :
    Timestamp.instantOfExtension u e =
      .error (.unexpectedFormat (.noTimestampLength e.data.length)) := by
  rw [Timestamp.instantOfExtension]
  cases hlayout : Timestamp.layoutOfSize? e.data.length with
  | some l => exact absurd (Timestamp.payloadSize_of_layoutOfSize hlayout) (h l)
  | none => rfl

end Sizes

/-! ### What is taken -/

section Taken

variable {α β : Type} {c c' : Cursor} {e : Error}

/-- A leaf that is checked once it has been read is left alone, or is taken and
fails the check. -/
theorem checked_mismatch {g : Get β} {check : β → Except Error α} (hg : g.Mild)
    (h : (do let b ← leaf g; Get.ofExcept (check b)) c = .error e c')
    (he : e.kind = .unexpectedFormat) :
    c' = c ∨ ∃ b, leaf g c = .ok b c' ∧ check b = .error e := by
  obtain hleaf | ⟨b, c₁, hleaf, hcheck⟩ := bind_eq_error_iff.mp h
  · exact .inl (Cursor.leaf_mismatch hg hleaf he)
  · refine .inr ⟨b, ?_⟩
    cases hfound : check b with
    | ok a =>
        rw [hfound] at hcheck
        cases hcheck
    | error e' =>
        rw [hfound] at hcheck
        cases hcheck
        exact ⟨hleaf, rfl⟩

/-- An extension that was read is what the input begins with. -/
theorem extension_inv {storage : Storage} {ext : Extension}
    (h : Cursor.extension storage c = .ok ext c') :
    typeNext c = .ok .extension c ∧ c.source.position < c'.source.position := by
  obtain ⟨-, t, hsource, rfl⟩ := Cursor.leaf_inv h
  obtain ⟨_, _, hextension, _⟩ := bind_eq_ok_iff.mp hsource
  obtain ⟨_, _, hheader, _⟩ := bind_eq_ok_iff.mp hextension
  obtain ⟨_, rest, hl, ⟨header, hformat, rfl⟩, -⟩ := Get.accepts_extensionHeader.sound hheader
  refine ⟨Cursor.typeNext_of_begins ((begins_extension hformat).append _) hl, ?_⟩
  obtain ⟨bs, _, _, hleaf, rfl⟩ := (Get.ofLeaves_extension storage).whole _ _ _ hsource
  obtain ⟨_, hbegins, -⟩ := hleaf.begins
  show _ < c.source.position + bs.length
  exact Nat.lt_add_of_pos_right (List.length_pos_iff.mpr hbegins.ne_nil)

end Taken

namespace Schema

variable {s : Schema} {c c' : Cursor} {e : Error}

/-- What has been taken when another format is found is an extension of another
size. -/
theorem mismatch_of_leaf (hs : s.isLeaf = true) (x : s.Val) (h : s.restore x c = .error e c')
    (he : e.kind = .unexpectedFormat) :
    c' = c ∨ ∃ ext, Cursor.extension .owned c = .ok ext c' ∧ s.Missizes ext := by
  have hextension := (Get.ofLeaves_extension .owned).mild
  cases hstamp : s.isTimestamp with
  | true =>
      cases s with
      | timestamp l =>
          refine (checked_mismatch hextension h he).imp_right ?_
          rintro ⟨ext, htaken, hcheck⟩
          exact ⟨ext, htaken, Classical.byContradiction fun hsized =>
            (complains_ofExtension_of_sized hsized).kind_ne hcheck he⟩
      | instant u =>
          refine (checked_mismatch hextension h he).imp_right ?_
          rintro ⟨ext, htaken, hcheck⟩
          exact ⟨ext, htaken, Classical.byContradiction fun hsized =>
            (complains_instant_of_sized hsized).kind_ne hcheck he⟩
      | _ => cases hstamp
  | false =>
      obtain ⟨β, reader, check, hreader, hcheck, -, hrestore⟩ := restore_leaf hs x
      rw [hstamp] at hcheck
      rw [hrestore] at h
      obtain hsame | ⟨b, -, hfound⟩ := checked_mismatch (hreader c.policy).mild h he
      · exact .inl hsame
      · exact absurd he ((hcheck b).kind_ne hfound)

theorem mismatch_of_sole (hs : s.Sole) (x : s.Val) (h : s.restore x c = .error e c')
    (he : e.kind = .unexpectedFormat) :
    c' = c ∨ ∃ ext, Cursor.extension .owned c = .ok ext c' ∧ s.Missizes ext := by
  induction hs with
  | leaf hleaf => exact mismatch_of_leaf hleaf x h he
  | @option s _ ih =>
      obtain hlook | ⟨entity, c₁, hlook, hrest⟩ := bind_eq_error_iff.mp h
      · exact .inl (Cursor.Looks.typeNext.unchanged hlook)
      · obtain rfl : c₁ = c := Cursor.Looks.typeNext.unmoved hlook
        have hsome : (do return some (← s.restore ((x : Option s.Val).getD s.fresh)) :
            Cursor.Step (Option s.Val)) c₁ = .error e c' →
            c' = c₁ ∨ ∃ ext, Cursor.extension .owned c₁ = .ok ext c' ∧ s.Missizes ext := by
          intro hread
          obtain hcontent | ⟨_, _, _, hpure⟩ := bind_eq_error_iff.mp hread
          · exact ih _ hcontent
          · cases hpure
        cases entity with
        | null =>
            obtain hnil | ⟨_, _, _, hpure⟩ := bind_eq_error_iff.mp hrest
            · exact .inl (Cursor.leaf_mismatch Get.mild_nil hnil he)
            · cases hpure
        | _ => exact hsome hrest

/-- An extension of another size is taken, and only then found to be of another
format. -/
theorem restore_of_missized (hs : s.Sole) (x : s.Val) {ext : Extension}
    (hext : Cursor.extension .owned c = .ok ext c') (h : s.Missizes ext) :
    ∃ e, s.restore x c = .error e c' ∧ e.kind = .unexpectedFormat := by
  induction hs with
  | @leaf s hleaf =>
      cases s with
      | timestamp l =>
          refine ⟨.unexpectedFormat (.timestampLength l.payloadSize ext.data.length), ?_, rfl⟩
          refine (bind_of_ok hext).trans ?_
          rw [ofExtension_of_missized h]
          rfl
      | instant u =>
          refine ⟨.unexpectedFormat (.noTimestampLength ext.data.length), ?_, rfl⟩
          refine (bind_of_ok hext).trans ?_
          rw [instantOfExtension_of_missized h]
          rfl
      | option => cases hleaf
      | _ => exact h.elim
  | @option s _ ih =>
      obtain ⟨e, hread, he⟩ := ih ((x : Option s.Val).getD s.fresh) h
      exact ⟨e, (bind_of_ok (extension_inv hext).1).trans (bind_of_error hread), he⟩

/-- An object that is read from a single entity, or is absent, leaves the cursor
as it was when it finds another format, exactly if what comes next is no
extension that the schema takes for one of another size. Such an extension is
taken. -/
theorem sole_retryable_iff (hs : s.Sole) (x : s.Val) (c : Cursor) :
    ((∀ e c', s.restore x c = .error e c' → e.kind = .unexpectedFormat → c' = c) ↔
      ∀ ext c', Cursor.extension .owned c = .ok ext c' → ¬ s.Missizes ext) ∧
    ∀ ext c', Cursor.extension .owned c = .ok ext c' → s.Missizes ext →
      ∃ e, s.restore x c = .error e c' ∧ e.kind = .unexpectedFormat ∧
        c.source.position < c'.source.position := by
  refine ⟨⟨fun hkept ext c' hext hsize => ?_, fun hsized e c' hread he => ?_⟩,
    fun ext c' hext hsize => ?_⟩
  · obtain ⟨e, hread, he⟩ := restore_of_missized hs x hext hsize
    obtain rfl := hkept e c' hread he
    exact Nat.lt_irrefl _ (extension_inv hext).2
  · obtain hsame | ⟨ext, hext, hsize⟩ := mismatch_of_sole hs x hread he
    · exact hsame
    · exact absurd hsize (hsized ext c' hext)
  · obtain ⟨e, hread, he⟩ := restore_of_missized hs x hext hsize
    exact ⟨e, hread, he, (extension_inv hext).2⟩

/-- An extension of type -1 with a single byte. -/
def shortStamp : Cursor := .ofBytes .widening .memory [0xd4, 0xff, 0x00]

/-- A short timestamp is taken by a restore that finds another format, and
cannot be read as an extension any more. -/
theorem sole_retryable_fails :
    ∃ e c', (Schema.timestamp .seconds32).restore (Timestamp.epoch .seconds32) shortStamp =
        .error e c' ∧
      e.kind = .unexpectedFormat ∧ c' ≠ shortStamp ∧ c'.source.position = 3 ∧
      Cursor.extension .owned shortStamp = .ok ⟨-1, [0]⟩ c' ∧
      ∃ e' c'', Cursor.extension .owned c' = .error e' c'' ∧ e'.kind = .endOfData :=
  ⟨.unexpectedFormat (.timestampLength 4 1), { shortStamp with source := ⟨.memory, [], 3⟩ }, rfl,
    rfl, fun h => absurd (congrArg (·.source.position) h) (by decide), rfl, rfl,
    .endOfData (.memory 1 0), _, rfl, rfl⟩

/-- A text that was taken for a timestamp is left alone. -/
theorem sole_retryable_text :
    ∃ e, (Schema.option (.timestamp .seconds32)).restore none lastText = .error e lastText ∧
      e.kind = .unexpectedFormat := by
  have hother : Cursor.extension .owned lastText =
    .error (.unexpectedFormat (.marker .extension (.ofByte 0xa1))) lastText := rfl
  have hsole : (Schema.option (.timestamp .seconds32)).Sole := .option (.leaf rfl)
  have hkept := (sole_retryable_iff hsole none lastText).1.mpr
    fun ext c' hext => nomatch hother.symm.trans hext
  obtain ⟨e, c', hread, he⟩ : ∃ e c',
      (Schema.option (.timestamp .seconds32)).restore none lastText = .error e c' ∧
        e.kind = .unexpectedFormat :=
    ⟨.unexpectedFormat (.marker .extension (.ofByte 0xa1)), lastText, rfl, rfl⟩
  obtain rfl := hkept e c' hread he
  exact ⟨e, hread, he⟩

end Schema

end MsgPack
