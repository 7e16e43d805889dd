import MsgPack.Cursor.Skip
import MsgPack.Proofs.Document
import MsgPack.Proofs.Wire.Fitting

/-!
What the readers of single entities do to a source, whatever policy they follow
and whoever keeps the content. They take whole leaves. A complaint about the
marker leaves it where it is; every other complaint is about something else
than the kind of what comes next. Passing over a leaf takes the same bytes.
-/

namespace MsgPack

open Grammar (Header Numeral TextHeader BinaryHeader ExtensionHeader)

namespace Get

variable {α β : Type} {g : Get α} {f : α → Get β}

/-! ### Whole leaves -/

/-- What the reader takes is a leaf. -/
def Whole (g : Get α) : Prop :=
  ∀ (s t : Source) (a : α), g s = .ok a t →
    ∃ bs rest, s.left = bs ++ rest ∧ Leaf bs ∧ t = s.advance bs.length

/-- The reader takes nothing. -/
def Still (g : Get α) : Prop := ∀ (s t : Source) (a : α), g s = .ok a t → t = s

theorem Accepts.whole {L : Language α} (h : Accepts g L) (hL : ∀ bs a, L bs a → Leaf bs) :
    Whole g := by
  intro s t a hg
  obtain ⟨bs, rest, hl, ha, ht⟩ := h.sound hg
  exact ⟨bs, rest, hl, hL bs a ha, ht⟩

theorem Lends.whole {g : Get Payload} {L : Language Bytes} (h : Lends g L)
    (hL : ∀ bs c, L bs c → Leaf bs) : Whole g := by
  intro s t p hg
  obtain ⟨bs, rest, hl, hc, ht⟩ := h.sound hg
  exact ⟨bs, rest, hl, hL bs _ hc, ht⟩

theorem whole_throw (e : Error) : Whole (throw e : Get α) := by
  intro s t a h
  cases h

theorem Whole.bind (hg : Whole g) (hf : ∀ a, Still (f a)) : Whole (g >>= f) := by
  intro s t b h
  obtain ⟨a, u, hgu, hfu⟩ := bind_eq_ok_iff.mp h
  obtain rfl := hf a _ _ _ hfu
  exact hg _ _ _ hgu

theorem still_pure (a : α) : Still (pure a : Get α) := by
  rintro s t b ⟨⟩
  rfl

theorem still_marker : Still marker := by
  intro s t m h
  cases hl : s.left with
  | nil => cases hk : s.kind <;> simp [marker, bind_apply, peek, hl, hk] at h
  | cons b rest =>
      rw [marker_cons hl] at h
      cases h
      rfl

theorem Still.bind_whole (hg : Still g) (hf : ∀ a, Whole (f a)) : Whole (g >>= f) := by
  intro s t b h
  obtain ⟨a, u, hgu, hfu⟩ := bind_eq_ok_iff.mp h
  obtain rfl := hg _ _ _ hgu
  exact hf a _ _ _ hfu

theorem Still.bind (hg : Still g) (hf : ∀ a, Still (f a)) : Still (g >>= f) := by
  intro s t b h
  obtain ⟨a, u, hgu, hfu⟩ := bind_eq_ok_iff.mp h
  exact (hf a _ _ _ hfu).trans (hg _ _ _ hgu)

theorem still_fit (n : Number) (x? : Option α) : Still (DecodePolicy.fit n x?) := by
  intro s t a h
  cases x? with
  | none => cases h
  | some x => exact still_pure x _ _ _ h

theorem still_take (storage : Storage) (p : Payload) : Still (storage.take p) := by
  cases storage with
  | owned => exact still_pure _
  | borrowed =>
      have hborrow : Still (borrow p) := by
        intro s t v h
        rw [borrow] at h
        split at h <;> cases h
        rfl
      exact hborrow.bind fun v => still_pure _

theorem whole_nil : Whole nil := by
  refine accepts_nil.whole fun bs _ h => ?_
  subst h
  exact .nil

theorem whole_bool : Whole bool := accepts_bool.whole fun _ _ h => .bool h

theorem whole_anyNumber : Whole anyNumber := accepts_anyNumber.whole fun _ _ h => .number h

theorem whole_exactInt (t : IntType) : Whole (exactInt t) := by
  refine (accepts_exactInt t).whole ?_
  rintro _ i ⟨b, bs, rfl, h⟩
  exact .number (numeral_of_exactIntAfter h)

theorem whole_exactFloat (p : Precision) : Whole (exactFloat p) := by
  refine (accepts_exactFloat p).whole ?_
  rintro _ x ⟨b, bs, rfl, h⟩
  exact .number (numeral_of_exactFloatAfter h)

theorem whole_text : Whole text := by
  refine lends_text.whole ?_
  rintro _ c ⟨header, content, n, rfl, hheader, ⟨rfl, rfl⟩, -⟩
  exact .text hheader

theorem whole_binary : Whole binary := by
  refine lends_binary.whole ?_
  rintro _ c ⟨header, content, n, rfl, hheader, rfl, rfl⟩
  exact .binary hheader

theorem whole_extension : Whole extension := by
  intro s t e h
  have haccepts := accepts_extension (f := fun e => pure (e.1, e.2.bytes))
    (M := fun e => .unit e) fun type p => .pure (type, p.bytes)
  obtain ⟨_, rest, hl, ⟨_, _, e', rfl, ⟨_, content, e'', rfl, ⟨header, hheader, rfl⟩,
    c, ⟨hlen, rfl⟩, rfl⟩, rfl, -⟩, ht⟩ := haccepts.sound (bind_of_ok h)
  refine ⟨_, rest, hl, ?_, ht⟩
  rw [List.append_nil, List.append_assoc, List.singleton_append]
  exact .extension (hlen ▸ hheader)

/-! ### Complaints -/

/-- No complaint is about the kind of what comes next, or about the caller. -/
def Hard (g : Get α) : Prop :=
  ∀ (s t : Source) (e : Error), g s = .error e t →
    e.kind ≠ .unexpectedFormat ∧ e.kind ≠ .readerContext

/-- A complaint about the kind of what comes next leaves it where it is. -/
def Mild (g : Get α) : Prop :=
  ∀ (s t : Source) (e : Error), g s = .error e t →
    e.kind = .unexpectedFormat ∧ t = s ∨ e.kind ≠ .unexpectedFormat ∧ e.kind ≠ .readerContext

theorem Hard.mild (h : Hard g) : Mild g := fun s t e hg => .inr (h s t e hg)

theorem Mild.bind (hg : Mild g) (hf : ∀ a, Hard (f a)) : Mild (g >>= f) := by
  intro s t e h
  obtain hfail | ⟨a, u, -, hfu⟩ := bind_eq_error_iff.mp h
  · exact hg _ _ _ hfail
  · exact .inr (hf a _ _ _ hfu)

theorem Hard.bind (hg : Hard g) (hf : ∀ a, Hard (f a)) : Hard (g >>= f) := by
  intro s t e h
  obtain hfail | ⟨a, u, -, hfu⟩ := bind_eq_error_iff.mp h
  · exact hg _ _ _ hfail
  · exact hf a _ _ _ hfu

theorem Still.bind_mild (hstill : Still g) (hg : Hard g) (hf : ∀ a, Mild (f a)) :
    Mild (g >>= f) := by
  intro s t e h
  obtain hfail | ⟨a, u, hgu, hfu⟩ := bind_eq_error_iff.mp h
  · exact .inr (hg _ _ _ hfail)
  · obtain rfl := hstill _ _ _ hgu
    exact hf a _ _ _ hfu

theorem hard_pure (a : α) : Hard (pure a : Get α) := by
  intro s t e h
  cases h

theorem hard_invalidData (cause : Defect) : Hard (throw (.invalidData cause) : Get α) := by
  rintro s t e ⟨⟩
  exact ⟨ErrorKind.noConfusion, ErrorKind.noConfusion⟩

theorem mild_refuse (expected : Expected) (m : Marker) : Mild (refuse expected m : Get α) := by
  rintro s t e ⟨⟩
  exact .inl ⟨rfl, rfl⟩

theorem hard_peek : Hard peek := by
  intro s t e h
  unfold peek at h
  split at h <;> cases h <;> exact ⟨ErrorKind.noConfusion, ErrorKind.noConfusion⟩

theorem hard_marker : Hard marker := hard_peek.bind fun _ => hard_pure _

theorem hard_byte : Hard byte := by
  refine hard_peek.bind fun b => Hard.bind (fun s t e h => ?_) fun _ => hard_pure b
  cases h

theorem hard_after (hg : Hard g) : Hard (after g) := by
  have hskip : Hard (discard byte) := hard_byte.bind fun _ => hard_pure _
  exact hskip.bind fun _ => hg

theorem hard_read (n : Nat) : Hard (read n) := by
  intro s t e h
  by_cases hn : (s.left.take n).length = n
  · obtain ⟨p, -, -, hread⟩ := (lends_read n).complete
      (List.take_append_drop n s.left).symm ⟨hn, rfl⟩
    cases hread.symm.trans h
  · obtain ⟨cause, u, hread⟩ := read_short hn
    cases hread.symm.trans h
    exact ⟨ErrorKind.noConfusion, ErrorKind.noConfusion⟩

theorem hard_number (width : Nat) : Hard (number width) :=
  (hard_read width).bind fun _ => hard_pure _

theorem hard_fit (n : Number) (x? : Option α) : Hard (DecodePolicy.fit n x?) := by
  cases x? with
  | none => exact hard_invalidData _
  | some x => exact hard_pure x

theorem hard_take (storage : Storage) (p : Payload) : Hard (storage.take p) := by
  cases storage with
  | owned => exact hard_pure _
  | borrowed =>
      have hborrow : Hard (borrow p) := by
        rw [borrow]
        split
        · exact hard_pure _
        · exact hard_invalidData _
      exact hborrow.bind fun v => hard_pure _

/-- A look at the marker, before a reader that leaves it where it is. -/
theorem mild_marker_bind {f : Marker → Get α} (hf : ∀ m, Mild (f m)) : Mild (marker >>= f) :=
  still_marker.bind_mild hard_marker hf

theorem mild_length (expected : Expected) (lengthOf : Marker → Option (Nat ⊕ Nat)) :
    Mild (length expected lengthOf) := by
  refine mild_marker_bind fun m => ?_
  split
  · exact mild_refuse expected m
  · exact (hard_after (hard_pure _)).mild
  · exact (hard_after (hard_number _)).mild

theorem mild_nil : Mild nil := by
  refine mild_marker_bind fun m => ?_
  split
  · exact (hard_after (hard_pure _)).mild
  · exact mild_refuse _ m

theorem mild_bool : Mild bool := by
  refine mild_marker_bind fun m => ?_
  split
  · exact (hard_after (hard_pure _)).mild
  · exact (hard_after (hard_pure _)).mild
  · exact mild_refuse _ m

theorem mild_exactInt (t : IntType) : Mild (exactInt t) := by
  refine mild_marker_bind fun m => ?_
  split
  · exact (hard_after (hard_pure _)).mild
  · split
    · exact (hard_after ((hard_number _).bind fun _ => hard_pure _)).mild
    · exact mild_refuse _ m

theorem mild_exactFloat (p : Precision) : Mild (exactFloat p) := by
  refine mild_marker_bind fun m => ?_
  split
  · exact (hard_after ((hard_number _).bind fun _ => hard_pure _)).mild
  · exact mild_refuse _ m

theorem mild_anyNumber : Mild anyNumber := by
  refine mild_marker_bind fun m => ?_
  split
  · exact (mild_exactInt .u8).bind fun _ => hard_pure _
  · exact (mild_exactInt .i8).bind fun _ => hard_pure _
  · split
    · exact ((hard_after (hard_number _)).bind fun _ => hard_pure _).mild
    · exact (mild_exactFloat _).bind fun _ => hard_pure _
    · exact mild_refuse _ m

theorem mild_text : Mild text := by
  refine (mild_length _ _).bind fun n => (hard_read n).bind fun p => ?_
  split
  · exact hard_pure p
  · exact hard_invalidData _

theorem mild_binary : Mild binary := (mild_length _ _).bind hard_read

theorem mild_extension : Mild extension :=
  ((mild_length _ _).bind fun _ => (hard_number 1).bind fun _ => hard_pure _).bind fun _ =>
    (hard_read _).bind fun _ => hard_pure _

/-! ### Readers of leaves -/

/-- A reader that takes whole leaves or leaves what is of another kind. -/
structure OfLeaves (g : Get α) : Prop where
  whole : Whole g
  mild : Mild g

theorem OfLeaves.bind (hg : OfLeaves g) (hstill : ∀ a, Still (f a)) (hhard : ∀ a, Hard (f a)) :
    OfLeaves (g >>= f) :=
  ⟨hg.whole.bind hstill, hg.mild.bind hhard⟩

theorem ofLeaves_number : OfLeaves anyNumber := ⟨whole_anyNumber, mild_anyNumber⟩

/-- A number where markers of its kinds are let through. -/
theorem ofLeaves_fitting {P : Option EntityType → Prop} [DecidablePred P]
    (target? : Number → Option α) (expected : Expected) :
    OfLeaves (fitting P target? expected) := by
  have hnumber : OfLeaves (do let n ← anyNumber; DecodePolicy.fit n (target? n)) :=
    ofLeaves_number.bind (fun n => still_fit n _) (fun n => hard_fit n _)
  refine ⟨still_marker.bind_whole fun m => ?_, mild_marker_bind fun m => ?_⟩
  · split
    · exact hnumber.whole
    · exact whole_throw _
  · split
    · exact hnumber.mild
    · exact mild_refuse _ m

theorem ofLeaves_int (policy : DecodePolicy) (t : IntType) : OfLeaves (policy.int t) := by
  cases policy with
  | exact => exact ⟨whole_exactInt t, mild_exactInt t⟩
  | widening => exact ofLeaves_fitting (P := (· = some .integer)) _ _
  | lenient => exact ofLeaves_fitting (P := (Option.any EntityType.isNumber ·)) _ _

theorem ofLeaves_float (policy : DecodePolicy) (p : Precision) : OfLeaves (policy.float p) := by
  cases policy with
  | exact => exact ⟨whole_exactFloat p, mild_exactFloat p⟩
  | widening => exact ofLeaves_fitting (P := (· = some .floatingPoint)) _ _
  | lenient => exact ofLeaves_fitting (P := (Option.any EntityType.isNumber ·)) _ _

theorem ofLeaves_text (storage : Storage) : OfLeaves (do storage.take (← text)) :=
  OfLeaves.bind ⟨whole_text, mild_text⟩ (still_take storage) (hard_take storage)

theorem ofLeaves_binary (storage : Storage) : OfLeaves (do storage.take (← binary)) :=
  OfLeaves.bind ⟨whole_binary, mild_binary⟩ (still_take storage) (hard_take storage)

theorem ofLeaves_extension (storage : Storage) :
    OfLeaves (do
      let (type, p) ← extension
      return (⟨type, ← storage.take p⟩ : Extension)) :=
  OfLeaves.bind ⟨whole_extension, mild_extension⟩
    (fun e => (still_take storage e.2).bind fun _ => still_pure _)
    (fun e => (hard_take storage e.2).bind fun _ => hard_pure _)

/-! ### Passing over leaves -/

section Passing

variable {s : Source} {b : UInt8} {bs header content rest : Bytes}

theorem discard_read (hl : s.left = bs ++ rest) {n : Nat} (hn : bs.length = n) :
    discard (read n) s = .ok () (s.advance bs.length) := by
  obtain ⟨p, -, -, hread⟩ := (lends_read n).complete hl ⟨hn, rfl⟩
  rw [discard_apply, bind_of_ok hread]
  rfl

theorem discard_byte (hl : s.left = b :: rest) : discard byte s = .ok () (s.advance 1) := by
  rw [discard_apply, bind_of_ok (byte_cons hl)]
  rfl

/-- Where a marker stands for itself, it is all that is passed over. -/
theorem skipLeaf_byte (hl : s.left = b :: rest)
    (hb : (Marker.ofByte b).code ∈
      [Typecode.nil, .boolFalse, .boolTrue, .positiveFixint, .negativeFixint]) :
    skipLeaf s = .ok () (s.advance 1) := by
  rw [← discard_byte hl]
  rw [skipLeaf, bind_of_ok (marker_cons hl)]
  simp only [List.mem_cons, List.not_mem_nil, or_false] at hb
  obtain hb | hb | hb | hb | hb := hb <;> rw [hb] <;> rfl

theorem skipLeaf_of_intType (hl : s.left = b :: rest) {t : IntType}
    (hb : (Marker.ofByte b).code.intType? = some t) :
    skipLeaf s = discard (read (1 + t.bytes)) s := by
  rw [skipLeaf, bind_of_ok (marker_cons hl)]
  cases hc : (Marker.ofByte b).code <;> rw [hc] at hb <;> cases hb <;> rfl

theorem skipLeaf_of_precision (hl : s.left = b :: rest) {p : Precision}
    (hb : (Marker.ofByte b).code.precision? = some p) :
    skipLeaf s = discard (read (1 + p.bytes)) s := by
  rw [skipLeaf, bind_of_ok (marker_cons hl)]
  cases hc : (Marker.ofByte b).code <;> rw [hc] at hb <;> cases hb <;> rfl

theorem skipLeaf_of_fixstr (hl : s.left = b :: rest) (hb : (Marker.ofByte b).code = .fixstr) :
    skipLeaf s = discard (read (1 + (Marker.ofByte b).payload.toNat)) s := by
  rw [skipLeaf, bind_of_ok (marker_cons hl), hb]

theorem skipLeaf_of_text (hl : s.left = b :: rest)
    (hb : (Marker.ofByte b).code ∈ [Typecode.str8, .str16, .str32]) :
    skipLeaf s = (do discard (read (← textHeader)) : Get Unit) s := by
  rw [skipLeaf, bind_of_ok (marker_cons hl)]
  simp only [List.mem_cons, List.not_mem_nil, or_false] at hb
  obtain hb | hb | hb := hb <;> rw [hb]

theorem skipLeaf_of_binary (hl : s.left = b :: rest)
    (hb : (Marker.ofByte b).code ∈ [Typecode.bin8, .bin16, .bin32]) :
    skipLeaf s = (do discard (read (← binaryHeader)) : Get Unit) s := by
  rw [skipLeaf, bind_of_ok (marker_cons hl)]
  simp only [List.mem_cons, List.not_mem_nil, or_false] at hb
  obtain hb | hb | hb := hb <;> rw [hb]

theorem skipLeaf_of_extension (hl : s.left = b :: rest)
    (hb : (Marker.ofByte b).code.entity? = some .extension) :
    skipLeaf s = discard extension s := by
  rw [skipLeaf, bind_of_ok (marker_cons hl)]
  cases hc : (Marker.ofByte b).code <;> rw [hc] at hb <;> cases hb <;> rfl

theorem skipLeaf_int {t : IntType} (hb : (Marker.ofByte b).code.intType? = some t)
    (hl : s.left = b :: bs ++ rest) (hlen : bs.length = t.bytes) :
    skipLeaf s = .ok () (s.advance (b :: bs).length) := by
  rw [skipLeaf_of_intType hl hb]
  exact discard_read hl (by rw [List.length_cons, hlen, Nat.add_comm])

theorem skipLeaf_float {p : Precision} (hb : (Marker.ofByte b).code.precision? = some p)
    (hl : s.left = b :: bs ++ rest) (hlen : bs.length = p.bytes) :
    skipLeaf s = .ok () (s.advance (b :: bs).length) := by
  rw [skipLeaf_of_precision hl hb]
  exact discard_read hl (by rw [List.length_cons, hlen, Nat.add_comm])

theorem skipLeaf_numeral {n : Number} (h : Numeral bs n) (hl : s.left = bs ++ rest) :
    skipLeaf s = .ok () (s.advance bs.length) := by
  obtain ⟨b, bs, rfl, -⟩ := begins_numeral h
  have hafter := numeral_cons_iff.mp h
  by_cases hpos : (Marker.ofByte b).code = .positiveFixint
  · obtain ⟨rfl, -⟩ := (numeralAfter_positiveFixint hpos).mp hafter
    exact skipLeaf_byte hl (by simp [hpos])
  by_cases hneg : (Marker.ofByte b).code = .negativeFixint
  · obtain ⟨rfl, -⟩ := (numeralAfter_negativeFixint hneg).mp hafter
    exact skipLeaf_byte hl (by simp [hneg])
  cases ht : (Marker.ofByte b).code.intType? with
  | some t => exact skipLeaf_int ht hl ((numeralAfter_sized ht).mp hafter).1
  | none =>
      cases hp : (Marker.ofByte b).code.precision? with
      | some p => exact skipLeaf_float hp hl ((numeralAfter_float hp).mp hafter).1
      | none => exact absurd hafter (not_numeralAfter hpos hneg ht hp)

theorem skipLeaf_text {n : Nat} (h : TextHeader header n) (hn : content.length = n)
    (hl : s.left = header ++ content ++ rest) :
    skipLeaf s = .ok () (s.advance (header ++ content).length) := by
  cases h with
  | @fixed tag _ htag =>
      have htext := textLength_tabulates.of_fixed _ htag
      obtain ⟨hcode, hpayload⟩ : (Marker.ofByte tag).code = .fixstr ∧
          (Marker.ofByte tag).payload.toNat = n := by
        unfold textLength at htext
        split at htext <;> simp_all
      rw [skipLeaf_of_fixstr hl hcode]
      exact discard_read hl (by rw [hpayload, List.length_append, List.length_singleton, hn])
  | @sized tag width digits htag hdigits =>
      have hcode : (Marker.ofByte tag).code ∈ [Typecode.str8, .str16, .str32] := by
        simp only [Grammar.strTags, List.mem_cons, List.not_mem_nil, or_false,
          Prod.mk.injEq] at htag
        obtain ⟨rfl, -⟩ | ⟨rfl, -⟩ | ⟨rfl, -⟩ := htag <;> decide
      have hskip := skipLeaf_of_text hl hcode
      rw [List.append_assoc] at hl
      rw [hskip, bind_of_ok (accepts_textHeader.complete hl (.sized htag hdigits)),
        discard_read (Source.left_advance_length hl) hn, Source.advance_advance,
        List.length_append]

theorem skipLeaf_binary {n : Nat} (h : BinaryHeader header n) (hn : content.length = n)
    (hl : s.left = header ++ content ++ rest) :
    skipLeaf s = .ok () (s.advance (header ++ content).length) := by
  cases h with
  | fixed htag => cases htag
  | @sized tag width digits htag hdigits =>
      have hcode : (Marker.ofByte tag).code ∈ [Typecode.bin8, .bin16, .bin32] := by
        simp only [Grammar.binTags, List.mem_cons, List.not_mem_nil, or_false,
          Prod.mk.injEq] at htag
        obtain ⟨rfl, -⟩ | ⟨rfl, -⟩ | ⟨rfl, -⟩ := htag <;> decide
      have hskip := skipLeaf_of_binary hl hcode
      rw [List.append_assoc] at hl
      rw [hskip, bind_of_ok (accepts_binaryHeader.complete hl (.sized htag hdigits)),
        discard_read (Source.left_advance_length hl) hn, Source.advance_advance,
        List.length_append]

theorem skipLeaf_extension {type : Int8} (h : ExtensionHeader header content.length)
    (hl : s.left = header ++ type.toUInt8 :: content ++ rest) :
    skipLeaf s = .ok () (s.advance (header ++ type.toUInt8 :: content).length) := by
  obtain ⟨p, -, -, hext⟩ := extension_of_left h hl
  have hdiscard : discard extension s =
      .ok () (s.advance (header ++ type.toUInt8 :: content).length) := by
    rw [discard_apply, bind_of_ok hext]
    rfl
  obtain ⟨b, tail, rfl, he⟩ := begins_extension h
  rw [skipLeaf_of_extension hl he, hdiscard]

theorem skipLeaf_of_leaf (h : Leaf bs) (hl : s.left = bs ++ rest) :
    skipLeaf s = .ok () (s.advance bs.length) := by
  cases h with
  | nil => exact skipLeaf_byte hl (List.mem_cons_self ..)
  | bool hb =>
      cases hb with
      | false => exact skipLeaf_byte hl (by decide)
      | true => exact skipLeaf_byte hl (by decide)
  | number hn => exact skipLeaf_numeral hn hl
  | text hheader => exact skipLeaf_text hheader rfl hl
  | binary hheader => exact skipLeaf_binary hheader rfl hl
  | extension hheader => exact skipLeaf_extension hheader hl

/-- No input begins with two leaves of different lengths: passing over one is
passing over the other. -/
theorem leaf_unique {bs' rest' : Bytes} (h : Leaf bs) (h' : Leaf bs')
    (hl : bs ++ rest = bs' ++ rest') : bs = bs' := by
  have hskip := skipLeaf_of_leaf (s := .ofBytes .memory (bs ++ rest)) h rfl
  have hskip' := skipLeaf_of_leaf (s := .ofBytes .memory (bs ++ rest)) h' hl
  obtain ⟨-, hsource⟩ := EStateM.Result.ok.inj (hskip.symm.trans hskip')
  have hlen : bs.length = bs'.length := by
    simpa [Source.ofBytes] using congrArg Source.position hsource
  exact (List.append_inj hl hlen).1

end Passing

end Get

/-! ### What nodes begin with -/

theorem Begins.unique {bs bs' rest rest' : Bytes} {e e' : EntityType} (h : Begins bs e)
    (h' : Begins bs' e') (hl : bs ++ rest = bs' ++ rest') : e = e' := by
  obtain ⟨b, tail, rfl, he⟩ := h
  obtain ⟨b', tail', rfl, he'⟩ := h'
  obtain ⟨rfl, -⟩ := List.cons.inj hl
  exact Option.some.inj (he.symm.trans he')

def Container.entity : Container → EntityType
  | .array => .array
  | .map => .map

theorem Container.entity_inj {kind kind' : Container} (h : kind.entity = kind'.entity) :
    kind = kind' := by
  cases kind <;> cases kind' <;> first | rfl | cases h

theorem Container.Opening.begins {kind : Container} {header : Bytes} {n : Nat}
    (h : kind.Opening header n) : Begins header kind.entity := by
  cases kind with
  | array => exact begins_array h
  | map =>
      obtain ⟨entries, hheader, -⟩ := h
      exact begins_map hheader

theorem Leaf.begins {bs : Bytes} (h : Leaf bs) :
    ∃ e, Begins bs e ∧ ∀ kind : Container, e ≠ kind.entity := by
  have hne : ∀ e ∈ [EntityType.null, .boolean, .integer, .floatingPoint, .string, .binary,
      .extension], ∀ kind : Container, e ≠ kind.entity := by
    intro e he kind
    cases kind <;> revert e <;> decide
  cases h with
  | nil => exact ⟨.null, ⟨_, _, rfl, rfl⟩, hne _ (by decide)⟩
  | bool hb => exact ⟨_, begins_bool hb, hne _ (by decide)⟩
  | @number _ n hn =>
      refine ⟨_, begins_numeral hn, hne _ ?_⟩
      unfold Number.entity
      split <;> decide
  | text hheader => exact ⟨_, (begins_text hheader).append _, hne _ (by decide)⟩
  | binary hheader => exact ⟨_, (begins_binary hheader).append _, hne _ (by decide)⟩
  | extension hheader => exact ⟨_, (begins_extension hheader).append _, hne _ (by decide)⟩

/-- A node that begins as a container is one, of that kind. -/
theorem Node.WellFormed.container_of_begins {n : Node} {kind : Container} {rest bs rest' : Bytes}
    (hn : n.WellFormed) (h : Begins bs kind.entity) (hl : n.bytes ++ rest = bs ++ rest') :
    ∃ header items, n = .container kind header items := by
  cases n with
  | leaf bytes =>
      obtain ⟨e, he, hne⟩ := Leaf.begins hn
      exact absurd (he.unique h hl) (hne kind)
  | container kind' header items =>
      have he := hn.1.begins.append (bytesAll items)
      obtain rfl := Container.entity_inj (he.unique h hl)
      exact ⟨header, items, rfl⟩

/-- A node that begins as a leaf is one. -/
theorem Node.WellFormed.leaf_of_leaf {n : Node} {rest bs rest' : Bytes} (hn : n.WellFormed)
    (h : Leaf bs) (hl : n.bytes ++ rest = bs ++ rest') : n = .leaf bs := by
  cases n with
  | leaf bytes => rw [Get.leaf_unique hn h hl]
  | container kind header items =>
      obtain ⟨e, he, hne⟩ := h.begins
      have hkind := hn.1.begins.append (bytesAll items)
      exact absurd (he.unique hkind hl.symm) (hne kind)

end MsgPack
