import MsgPack.Proofs.Bytes
import MsgPack.Proofs.Integer
import MsgPack.Proofs.Wire.Accepts

/-!
The readers of nil, booleans and numbers. What the reader of numbers accepts is
told first by the codes it asks for, and then found to be what the grammar has
in its tables.
-/

namespace MsgPack.Get

open Grammar (Numeral)

/-- Outside the fix families a code is its byte. -/
theorem toByte_code {b : UInt8} (h : (Marker.ofByte b).code.isFix = false) :
    (Marker.ofByte b).code.toByte = b :=
  forall_byte (P := fun b => (Marker.ofByte b).code.isFix = false →
    (Marker.ofByte b).code.toByte = b) (by decide) b h

theorem byte_of_code {b : UInt8} {c : Typecode} (hb : (Marker.ofByte b).code = c)
    (hc : c.isFix = false) : b = c.toByte := by
  subst hb
  exact (toByte_code hc).symm

/-- The two words that stand for booleans. -/
inductive BoolForm : Language Bool
  | false : BoolForm [0xc2] false
  | true : BoolForm [0xc3] true

theorem accepts_nil : Accepts nil fun bs _ => bs = [0xc0] := by
  have h : Accepts nil (.byFirst fun b bs _ => b :: bs = [0xc0]) := by
    refine AcceptsAt.marker_bind fun b => ?_
    split
    · next hb =>
        obtain rfl := byte_of_code hb rfl
        refine (AcceptsAt.after (.pure ())).congr fun bs u => ?_
        simp [Language.unit, Typecode.toByte]
    · next hb =>
        refine (AcceptsAt.throw _).congr fun bs u => ?_
        simp only [false_iff]
        rintro ⟨⟩
        exact hb rfl
  refine h.congr fun bs u => ⟨?_, ?_⟩
  · rintro ⟨b, rest, rfl, hb⟩
    exact hb
  · rintro rfl
    exact ⟨_, _, rfl, rfl⟩

theorem accepts_bool : Accepts bool BoolForm := by
  have h : Accepts bool (.byFirst fun b bs v => BoolForm (b :: bs) v) := by
    refine AcceptsAt.marker_bind fun b => ?_
    split
    · next hb =>
        obtain rfl := byte_of_code hb rfl
        refine (AcceptsAt.after (.pure true)).congr fun bs v => ⟨?_, ?_⟩
        · rintro ⟨rfl, rfl⟩
          exact .true
        · rintro ⟨⟩
          exact ⟨rfl, rfl⟩
    · next hb =>
        obtain rfl := byte_of_code hb rfl
        refine (AcceptsAt.after (.pure false)).congr fun bs v => ⟨?_, ?_⟩
        · rintro ⟨rfl, rfl⟩
          exact .false
        · rintro ⟨⟩
          exact ⟨rfl, rfl⟩
    · next htrue hfalse =>
        refine (AcceptsAt.throw _).congr fun bs v => ?_
        simp only [false_iff]
        rintro ⟨⟩
        · exact hfalse rfl
        · exact htrue rfl
  refine h.congr fun bs v => ⟨?_, ?_⟩
  · rintro ⟨b, rest, rfl, hb⟩
    exact hb
  · rintro ⟨⟩
    · exact ⟨_, _, rfl, .false⟩
    · exact ⟨_, _, rfl, .true⟩

/-! ### Numbers -/

/-- What a marker lets follow, where a reader takes the integers of one type in
their own encoding. -/
def exactIntAfter (t : IntType) (m : Marker) : Language t.Value :=
  match fixint? t m with
  | some i => .unit (t.wrap i)
  | none =>
    if m.code = t.typecode then (Language.ofLength t.bytes).image fun c => t.ofBits c.toNat
    else fun _ _ => False

def exactFloatAfter (p : Precision) (m : Marker) : Language (FloatBits p) :=
  if m.code = p.typecode then (Language.ofLength p.bytes).image fun c => .ofNat c.toNat
  else fun _ _ => False

theorem accepts_numeral {α : Type} (width : Nat) (f : Nat → α) :
    Accepts (do return f (← number width))
      ((Language.ofLength width).image fun c => f c.toNat) :=
  Language.image_image Bytes.toNat f _ ▸ (accepts_number width).map f

theorem accepts_exactInt (t : IntType) :
    Accepts (exactInt t) (.byFirst fun b => exactIntAfter t (.ofByte b)) := by
  refine AcceptsAt.marker_bind fun b => ?_
  rw [exactIntAfter]
  cases fixint? t (.ofByte b) with
  | some i => exact AcceptsAt.after (.pure (t.wrap i))
  | none =>
      dsimp only
      by_cases hb : (Marker.ofByte b).code = t.typecode
      · rw [if_pos hb, if_pos hb]
        exact AcceptsAt.after (accepts_numeral t.bytes t.ofBits)
      · rw [if_neg hb, if_neg hb]
        exact AcceptsAt.throw _

theorem accepts_exactFloat (p : Precision) :
    Accepts (exactFloat p) (.byFirst fun b => exactFloatAfter p (.ofByte b)) := by
  refine AcceptsAt.marker_bind fun b => ?_
  rw [exactFloatAfter]
  by_cases hb : (Marker.ofByte b).code = p.typecode
  · rw [if_pos hb, if_pos hb]
    exact AcceptsAt.after (accepts_numeral p.bytes FloatBits.ofNat)
  · rw [if_neg hb, if_neg hb]
    exact AcceptsAt.throw _

/-- What a marker lets follow, where a reader takes any number. -/
def numeralAfter (m : Marker) : Language Number :=
  match m.code with
  | .positiveFixint => (exactIntAfter .u8 m).image .ofInt
  | .negativeFixint => (exactIntAfter .i8 m).image .ofInt
  | code =>
    match code.intType?, code.precision? with
    | some t, _ => (Language.ofLength t.bytes).image fun c => .ofInt (t.ofBits c.toNat)
    | none, some p => (exactFloatAfter p m).image (.ofFloat p)
    | none, none => fun _ _ => False

theorem AcceptsAt.ofByFirst {α : Type} {b : UInt8} {g : Get α} {K : UInt8 → Language α}
    (h : Accepts g (.byFirst K)) : AcceptsAt b g (K b) := by
  have hne : ∀ a, ¬ Language.byFirst K [] a := by
    rintro a ⟨_, _, hnil, _⟩
    cases hnil
  refine (AcceptsAt.ofAccepts h hne).congr fun bs a => ⟨?_, ?_⟩
  · rintro ⟨_, _, heq, ha⟩
    obtain ⟨rfl, rfl⟩ := List.cons.inj heq
    exact ha
  · intro ha
    exact ⟨b, bs, rfl, ha⟩

theorem acceptsAt_sized (t : IntType) (b : UInt8) :
    AcceptsAt b (do return Number.ofInt (t.ofBits (← after (number t.bytes))))
      ((Language.ofLength t.bytes).image fun c => .ofInt (t.ofBits c.toNat)) := by
  have himage := Language.image_image Bytes.toNat (fun n => Number.ofInt (t.ofBits n))
    (Language.ofLength t.bytes)
  rw [← himage]
  exact (AcceptsAt.after (accepts_number t.bytes)).map fun n => Number.ofInt (t.ofBits n)

theorem accepts_anyNumber_after :
    Accepts anyNumber (.byFirst fun b => numeralAfter (.ofByte b)) := by
  refine AcceptsAt.marker_bind fun b => ?_
  rw [numeralAfter]
  cases (Marker.ofByte b).code
  case positiveFixint => exact (AcceptsAt.ofByFirst (accepts_exactInt .u8)).map Number.ofInt
  case negativeFixint => exact (AcceptsAt.ofByFirst (accepts_exactInt .i8)).map Number.ofInt
  case float32 => exact (AcceptsAt.ofByFirst (accepts_exactFloat .single)).map (Number.ofFloat _)
  case float64 => exact (AcceptsAt.ofByFirst (accepts_exactFloat .double)).map (Number.ofFloat _)
  all_goals first
    | exact AcceptsAt.throw _
    | exact acceptsAt_sized _ b

/-! The same languages by families of codes, and the families by tables. -/

section Families

variable {b : UInt8} {bs : Bytes} {n : Number}

theorem int_eq_ofInt {t : IntType} {i : WireInt} {j : t.Value} :
    Number.int i = .ofInt j ↔ i.val = j.val := by
  rw [Number.ofInt, Number.int.injEq, Subtype.ext_iff]
  rfl

theorem positiveFixint_byte (hb : (Marker.ofByte b).code = .positiveFixint) :
    b.toNat < 0x80 ∧ (Marker.ofByte b).payload = b :=
  forall_byte (P := fun b => (Marker.ofByte b).code = .positiveFixint →
    b.toNat < 0x80 ∧ (Marker.ofByte b).payload = b) (by decide) b hb

theorem negativeFixint_byte (hb : (Marker.ofByte b).code = .negativeFixint) :
    0xe0 ≤ b.toNat ∧ (Marker.ofByte b).signedByte.toInt = b.toNat - 0x100 :=
  forall_byte (P := fun b => (Marker.ofByte b).code = .negativeFixint →
    0xe0 ≤ b.toNat ∧ (Marker.ofByte b).signedByte.toInt = b.toNat - 0x100)
    (by decide) b hb

theorem numeralAfter_positiveFixint (hb : (Marker.ofByte b).code = .positiveFixint) :
    numeralAfter (.ofByte b) bs n ↔ bs = [] ∧ ∃ i, n = .int i ∧ i.val = b.toNat := by
  obtain ⟨hlt, hpayload⟩ := positiveFixint_byte hb
  have hwrap : (IntType.u8.wrap b.toNat).val = b.toNat := by
    rw [IntType.wrap_of_contains ⟨Int.natCast_nonneg _, ?_⟩]
    simp only [IntType.max]
    omega
  simp only [numeralAfter, hb, exactIntAfter, fixint?, hpayload]
  refine ⟨?_, ?_⟩
  · rintro ⟨j, ⟨rfl, rfl⟩, rfl⟩
    exact ⟨rfl, _, rfl, hwrap⟩
  · rintro ⟨rfl, i, rfl, hi⟩
    exact ⟨_, ⟨rfl, rfl⟩, int_eq_ofInt.mpr (hi.trans hwrap.symm)⟩

theorem numeralAfter_negativeFixint (hb : (Marker.ofByte b).code = .negativeFixint) :
    numeralAfter (.ofByte b) bs n ↔ bs = [] ∧ ∃ i, n = .int i ∧ i.val = b.toNat - 0x100 := by
  obtain ⟨hle, hsigned⟩ := negativeFixint_byte hb
  have hwrap : (IntType.i8.wrap (b.toNat - 0x100)).val = b.toNat - 0x100 := by
    have hlt := UInt8.toNat_lt b
    rw [IntType.wrap_of_contains ?_]
    simp only [IntType.Contains, IntType.min, IntType.max]
    omega
  simp only [numeralAfter, hb, exactIntAfter, fixint?, hsigned]
  refine ⟨?_, ?_⟩
  · rintro ⟨j, ⟨rfl, rfl⟩, rfl⟩
    exact ⟨rfl, _, rfl, hwrap⟩
  · rintro ⟨rfl, i, rfl, hi⟩
    exact ⟨_, ⟨rfl, rfl⟩, int_eq_ofInt.mpr (hi.trans hwrap.symm)⟩

theorem numeralAfter_sized {t : IntType} (hb : (Marker.ofByte b).code.intType? = some t) :
    numeralAfter (.ofByte b) bs n ↔
      bs.length = t.bytes ∧ ∃ i, n = .int i ∧ i.val = (t.ofBits bs.toNat).val := by
  have hafter : numeralAfter (.ofByte b) =
      (Language.ofLength t.bytes).image fun c => .ofInt (t.ofBits c.toNat) := by
    rw [numeralAfter]
    cases hc : (Marker.ofByte b).code <;> rw [hc] at hb <;> cases hb <;> rfl
  rw [hafter, Language.image_ofLength]
  refine and_congr_right fun _ => ⟨?_, ?_⟩
  · rintro rfl
    exact ⟨_, rfl, rfl⟩
  · rintro ⟨i, rfl, hi⟩
    exact int_eq_ofInt.mpr hi

theorem numeralAfter_float {p : Precision}
    (hb : (Marker.ofByte b).code.precision? = some p) :
    numeralAfter (.ofByte b) bs n ↔ bs.length = p.bytes ∧ n = .ofFloat p (.ofNat bs.toNat) := by
  have hafter : numeralAfter (.ofByte b) =
      (Language.ofLength p.bytes).image fun c => .ofFloat p (.ofNat c.toNat) := by
    rw [← Language.image_image (fun c : Bytes => (.ofNat c.toNat : FloatBits p))]
    unfold numeralAfter exactFloatAfter
    cases hc : (Marker.ofByte b).code <;> rw [hc] at hb <;> cases hb <;> rfl
  rw [hafter, Language.image_ofLength]

theorem intType_of_mem_uintTags {tag : UInt8} {width : Nat}
    (h : (tag, width) ∈ Grammar.uintTags) :
    ∃ t, (Marker.ofByte tag).code.intType? = some t ∧ t.isSigned = false ∧ t.bytes = width := by
  simp only [Grammar.uintTags, List.mem_cons, List.not_mem_nil, or_false, Prod.mk.injEq] at h
  obtain ⟨rfl, rfl⟩ | ⟨rfl, rfl⟩ | ⟨rfl, rfl⟩ | ⟨rfl, rfl⟩ := h
  · exact ⟨.u8, rfl, rfl, rfl⟩
  · exact ⟨.u16, rfl, rfl, rfl⟩
  · exact ⟨.u32, rfl, rfl, rfl⟩
  · exact ⟨.u64, rfl, rfl, rfl⟩

theorem intType_of_mem_intTags {tag : UInt8} {width : Nat}
    (h : (tag, width) ∈ Grammar.intTags) :
    ∃ t, (Marker.ofByte tag).code.intType? = some t ∧ t.isSigned = true ∧ t.bytes = width := by
  simp only [Grammar.intTags, List.mem_cons, List.not_mem_nil, or_false, Prod.mk.injEq] at h
  obtain ⟨rfl, rfl⟩ | ⟨rfl, rfl⟩ | ⟨rfl, rfl⟩ | ⟨rfl, rfl⟩ := h
  · exact ⟨.i8, rfl, rfl, rfl⟩
  · exact ⟨.i16, rfl, rfl, rfl⟩
  · exact ⟨.i32, rfl, rfl, rfl⟩
  · exact ⟨.i64, rfl, rfl, rfl⟩

theorem mem_of_intType {b : UInt8} {t : IntType}
    (hb : (Marker.ofByte b).code.intType? = some t) :
    (b, t.bytes) ∈ if t.isSigned then Grammar.intTags else Grammar.uintTags := by
  have h := forall_byte (P := fun b => (Marker.ofByte b).code.intType?.all fun t =>
    (if t.isSigned then Grammar.intTags else Grammar.uintTags).contains (b, t.bytes))
    (by decide) b
  simpa [hb] using h

theorem code_of_precision {c : Typecode} {p : Precision} (h : c.precision? = some p) :
    c = p.typecode := by
  cases c <;> cases h <;> rfl

theorem not_numeralAfter (hpos : (Marker.ofByte b).code ≠ .positiveFixint)
    (hneg : (Marker.ofByte b).code ≠ .negativeFixint)
    (ht : (Marker.ofByte b).code.intType? = none)
    (hp : (Marker.ofByte b).code.precision? = none) : ¬ numeralAfter (.ofByte b) bs n := by
  rw [numeralAfter]
  cases hc : (Marker.ofByte b).code <;> rw [hc] at hpos hneg ht hp
  all_goals first | contradiction | exact fun h => h

theorem numeralAfter_of_numeral (h : Numeral (b :: bs) n) : numeralAfter (.ofByte b) bs n := by
  -- the first byte is a tag of the tables or the whole of a small integer
  generalize hs : b :: bs = s at h
  cases h with
  | @positiveFixint k i hk hi =>
      obtain ⟨rfl, rfl⟩ := List.cons.inj hs
      have hcode : ∀ k < 0x80, (Marker.ofByte (.ofNat k)).code = .positiveFixint := by
        decide
      refine (numeralAfter_positiveFixint (hcode k hk)).mpr ⟨rfl, i, rfl, ?_⟩
      rw [hi, toNat_byte (by omega)]
  | @negativeFixint k i hk hi =>
      obtain ⟨rfl, rfl⟩ := List.cons.inj hs
      have hcode : ∀ k < 0x21, 1 ≤ k →
          (Marker.ofByte (.ofNat (0x100 - k))).code = .negativeFixint := by decide
      refine (numeralAfter_negativeFixint (hcode k (by omega) hk.1)).mpr ⟨rfl, i, rfl, ?_⟩
      rw [hi, toNat_byte (by omega)]
      omega
  | @unsigned tag width digits i htag hdigits hi =>
      obtain ⟨rfl, rfl⟩ := List.cons.inj hs
      obtain ⟨t, ht, hsigned, rfl⟩ := intType_of_mem_uintTags htag
      refine (numeralAfter_sized ht).mpr ⟨hdigits, i, rfl, ?_⟩
      rw [hi, IntType.ofBits_unsigned hsigned (hdigits ▸ Bytes.toNat_lt bs)]
  | @signed tag width digits i htag hdigits hi =>
      obtain ⟨rfl, rfl⟩ := List.cons.inj hs
      obtain ⟨t, ht, hsigned, rfl⟩ := intType_of_mem_intTags htag
      refine (numeralAfter_sized ht).mpr ⟨hdigits, i, rfl, ?_⟩
      rw [hi, IntType.ofBits_signed hsigned (hdigits ▸ Bytes.toNat_lt bs)]
  | single hdigits =>
      obtain ⟨rfl, rfl⟩ := List.cons.inj hs
      exact (numeralAfter_float (p := .single) rfl).mpr ⟨hdigits, rfl⟩
  | double hdigits =>
      obtain ⟨rfl, rfl⟩ := List.cons.inj hs
      exact (numeralAfter_float (p := .double) rfl).mpr ⟨hdigits, rfl⟩

theorem numeral_of_numeralAfter (h : numeralAfter (.ofByte b) bs n) : Numeral (b :: bs) n := by
  by_cases hpos : (Marker.ofByte b).code = .positiveFixint
  · obtain ⟨rfl, i, rfl, hi⟩ := (numeralAfter_positiveFixint hpos).mp h
    have hb := Numeral.positiveFixint (positiveFixint_byte hpos).1 hi
    rwa [UInt8.ofNat_toNat] at hb
  by_cases hneg : (Marker.ofByte b).code = .negativeFixint
  · obtain ⟨rfl, i, rfl, hi⟩ := (numeralAfter_negativeFixint hneg).mp h
    have hlt := UInt8.toNat_lt b
    have hle := (negativeFixint_byte hneg).1
    have hb := Numeral.negativeFixint (n := 0x100 - b.toNat) (i := i) (by omega) (by omega)
    rwa [show 0x100 - (0x100 - b.toNat) = b.toNat by omega, UInt8.ofNat_toNat] at hb
  cases ht : (Marker.ofByte b).code.intType? with
  | some t =>
      obtain ⟨hlen, i, rfl, hi⟩ := (numeralAfter_sized ht).mp h
      have hmem := mem_of_intType ht
      cases hsigned : t.isSigned <;> rw [hsigned] at hmem
      · rw [IntType.ofBits_unsigned hsigned (hlen ▸ Bytes.toNat_lt bs)] at hi
        exact .unsigned hmem hlen hi
      · rw [IntType.ofBits_signed hsigned (hlen ▸ Bytes.toNat_lt bs)] at hi
        exact .signed hmem hlen hi
  | none =>
      cases hp : (Marker.ofByte b).code.precision? with
      | some p =>
          obtain ⟨hlen, rfl⟩ := (numeralAfter_float hp).mp h
          cases p with
          | single =>
              obtain rfl := byte_of_code (code_of_precision hp) rfl
              exact .single hlen
          | double =>
              obtain rfl := byte_of_code (code_of_precision hp) rfl
              exact .double hlen
      | none => exact absurd h (not_numeralAfter hpos hneg ht hp)

theorem numeral_cons_iff : Numeral (b :: bs) n ↔ numeralAfter (.ofByte b) bs n :=
  ⟨numeralAfter_of_numeral, numeral_of_numeralAfter⟩

/-- An integer in its own encoding is a numeral. -/
theorem numeral_of_exactIntAfter {t : IntType} {i : t.Value}
    (h : exactIntAfter t (.ofByte b) bs i) : Numeral (b :: bs) (.ofInt i) := by
  have hafter := h
  rw [exactIntAfter] at h
  -- small integers are the numbers of their own families, the others follow their tags
  cases hfix : fixint? t (.ofByte b) with
  | some k =>
      obtain ⟨hcode, rfl⟩ | ⟨hcode, rfl⟩ :
          (Marker.ofByte b).code = .positiveFixint ∧ t = .u8 ∨
            (Marker.ofByte b).code = .negativeFixint ∧ t = .i8 := by
        unfold fixint? at hfix
        split at hfix
        · next hcode => exact .inl ⟨hcode, rfl⟩
        · next hcode => exact .inr ⟨hcode, rfl⟩
        · cases hfix
      · refine numeral_cons_iff.mpr ?_
        rw [numeralAfter, hcode]
        exact ⟨i, hafter, rfl⟩
      · refine numeral_cons_iff.mpr ?_
        rw [numeralAfter, hcode]
        exact ⟨i, hafter, rfl⟩
  | none =>
      rw [hfix] at h
      dsimp only at h
      split at h
      · next hcode =>
          obtain ⟨hlen, rfl⟩ := Language.image_ofLength.mp h
          have ht : (Marker.ofByte b).code.intType? = some t := by
            rw [hcode]
            cases t <;> rfl
          exact numeral_cons_iff.mpr
            ((numeralAfter_sized ht).mpr ⟨hlen, (t.ofBits bs.toNat).toWire, rfl, rfl⟩)
      · exact h.elim

theorem numeral_of_exactFloatAfter {p : Precision} {x : FloatBits p}
    (h : exactFloatAfter p (.ofByte b) bs x) : Numeral (b :: bs) (.ofFloat p x) := by
  rw [exactFloatAfter] at h
  split at h
  · next hcode =>
      obtain ⟨hlen, rfl⟩ := Language.image_ofLength.mp h
      have hp : (Marker.ofByte b).code.precision? = some p := by
        rw [hcode]
        cases p <;> rfl
      exact numeral_cons_iff.mpr ((numeralAfter_float hp).mpr ⟨hlen, rfl⟩)
  · exact h.elim

end Families

theorem accepts_anyNumber : Accepts anyNumber Numeral := by
  refine accepts_anyNumber_after.congr fun bs n => ⟨?_, ?_⟩
  · rintro ⟨b, rest, rfl, h⟩
    exact numeral_cons_iff.mpr h
  · intro h
    cases bs with
    | nil => cases h
    | cons b rest => exact ⟨b, rest, rfl, numeral_cons_iff.mp h⟩

end MsgPack.Get
