import MsgPack.Proofs.FloatBits.Worth
import MsgPack.Proofs.Wire.Fitting
import MsgPack.Proofs.Wire.Writing

/-!
Numbers from the wire in the types that ask for them. An integer type takes a
number if and only if it holds what the number is worth, whatever it was written
as. A float type is less particular: where it has a float of that worth this is
what it takes, and otherwise it takes another one, unless the number is beyond
the greatest of its floats.
-/

namespace MsgPack

open Grammar (Numeral)

namespace Number

/-- What a number is worth, if it is a finite one. -/
def toRat? : Number → Option ℚ
  | int i => some i.val
  | float x => x.toRat?

theorem toRat?_ofFloat (p : Precision) (x : FloatBits p) : (ofFloat p x).toRat? = x.toRat? := by
  cases p with
  | single => exact Single.toRat?_widen x
  | double => rfl

end Number

/-! ### Integers -/

theorem Double.toWireInt?_eq_some_iff {x : Double} {i : WireInt} :
    x.toWireInt? = some i ↔ x.toRat? = some (i.val : ℚ) := by
  rw [toWireInt?, Option.bind_eq_some_iff]
  refine ⟨?_, fun h => ⟨i.val, FloatBits.toInt?_eq_some_iff.mpr h,
    WireInt.ofInt?_eq_some_iff.mpr rfl⟩⟩
  rintro ⟨_, hint, hi⟩
  obtain rfl := WireInt.ofInt?_eq_some_iff.mp hi
  exact FloatBits.toInt?_eq_some_iff.mp hint

namespace DecodePolicy

variable {t : IntType} {m : t.Value} {n : Number} {bs rest : Bytes} {s : Source}

/-- A number stands for the integer that it is worth, and for no other. -/
theorem integerOf?_eq_some_iff : integerOf? t n = some m ↔ n.toRat? = some (m.val : ℚ) := by
  cases n with
  | int i =>
      show t.ofInt? i.val = some m ↔ some (i.val : ℚ) = some (m.val : ℚ)
      rw [IntType.ofInt?_eq_some_iff, Option.some_inj, Int.cast_inj]
  | float x =>
      show x.toWireInt?.bind (t.ofInt? ·.val) = some m ↔ x.toRat? = some (m.val : ℚ)
      rw [Option.bind_eq_some_iff]
      refine ⟨?_, fun h => ⟨m.toWire, Double.toWireInt?_eq_some_iff.mpr h,
        IntType.ofInt?_eq_some_iff.mpr rfl⟩⟩
      rintro ⟨i, hi, hm⟩
      rw [← IntType.ofInt?_eq_some_iff.mp hm]
      exact Double.toWireInt?_eq_some_iff.mp hi

theorem lenient_int (h : Numeral bs n) (hl : s.left = bs ++ rest) :
    lenient.int t s = fit n (integerOf? t n) (s.advance bs.length) := by
  rw [Get.int_lenient]
  exact Get.fitting_of_numeral h hl (Get.isNumber_entity n)

/-- However an integer is written, it is read as itself, and fitted in by its
value alone. -/
theorem int_of_integer {policy : DecodePolicy} (hpolicy : policy ≠ .exact) {i : WireInt}
    (h : Numeral bs (.int i)) (hl : s.left = bs ++ rest) :
    policy.int t s = fit (.int i) (t.ofInt? i.val) (s.advance bs.length) := by
  cases policy with
  | exact => exact absurd rfl hpolicy
  | widening =>
      rw [Get.int_widening]
      exact Get.fitting_of_numeral h hl rfl
  | lenient => exact lenient_int h hl

theorem fit_ofInt? (i : WireInt) :
    fit (.int i) (t.ofInt? i.val) s =
      if h : t.Contains i.val then .ok ⟨i.val, h⟩ s
      else .error (.invalidData (.outOfRange (.int i))) s := by
  rw [IntType.ofInt?]
  split <;> rfl

/-- An integer type takes a number exactly if it holds what the number is worth,
and complains about every other one. All encodings of an integer are one number.
Floats are refused where only integers are let through. -/
theorem int_takes_worth (t : IntType) (kind : SourceKind) (rest : Bytes) (position : Nat) :
    (∀ (bs : Bytes) (i : WireInt), Numeral bs (.int i) →
      Get.anyNumber ⟨kind, bs ++ rest, position⟩ =
        .ok (.int i) ⟨kind, rest, position + bs.length⟩ ∧
      ∀ policy : DecodePolicy, policy ≠ .exact →
        policy.int t ⟨kind, bs ++ rest, position⟩ =
          if h : t.Contains i.val then .ok ⟨i.val, h⟩ ⟨kind, rest, position + bs.length⟩
          else .error (.invalidData (.outOfRange (.int i))) ⟨kind, rest, position + bs.length⟩) ∧
    ∀ (p : Precision) (digits : Bytes), digits.length = p.bytes →
      let x : FloatBits p := .ofNat digits.toNat
      let s : Source := ⟨kind, p.typecode.toByte :: digits ++ rest, position⟩
      let u : Source := ⟨kind, rest, position + (1 + p.bytes)⟩
      (∀ m v, lenient.int t s = .ok m v ↔ x.toRat? = some (m.val : ℚ) ∧ v = u) ∧
      (∀ e v, lenient.int t s = .error e v ↔
        (∀ m : t.Value, x.toRat? ≠ some (m.val : ℚ)) ∧
          e = .invalidData (.outOfRange (.ofFloat p x)) ∧ v = u) ∧
      widening.int t s =
        .error (.unexpectedFormat (.marker .integer (.ofByte p.typecode.toByte))) s := by
  refine ⟨fun bs i h => ⟨?_, fun policy hpolicy => ?_⟩, fun p digits hdigits => ?_⟩
  · rw [Get.accepts_anyNumber.complete rfl h, Source.advance_mk]
  · rw [int_of_integer hpolicy h rfl, Source.advance_mk, fit_ofInt?]
  · intro x s u
    have hnumeral : Numeral (p.typecode.toByte :: digits) (.ofFloat p x) :=
      Put.numeral_digits p hdigits
    have hadvance : s.advance (p.typecode.toByte :: digits).length = u := by
      rw [Source.advance_mk, List.length_cons, hdigits, Nat.add_comm p.bytes]
    have hlenient : lenient.int t s = fit (.ofFloat p x) (integerOf? t (.ofFloat p x)) u :=
      hadvance ▸ lenient_int hnumeral rfl
    have hworth (m : t.Value) :
        integerOf? t (.ofFloat p x) = some m ↔ x.toRat? = some (m.val : ℚ) := by
      rw [integerOf?_eq_some_iff, Number.toRat?_ofFloat]
    refine ⟨fun m v => ?_, fun e v => ?_, ?_⟩
    · rw [hlenient, fit_eq_ok_iff, hworth]
    · rw [hlenient, fit_eq_error_iff, Option.eq_none_iff_forall_ne_some]
      exact and_congr_left' (forall_congr' fun m => not_congr (hworth m))
    · rw [Get.int_widening]
      refine Get.fitting_refused rfl ?_
      cases p <;> decide

theorem int_takes_worth_of_200 :
    Numeral [0xd1, 0x00, 0xc8] (.int ⟨200, by decide⟩) ∧
      widening.int .u8 (.ofBytes .memory [0xd1, 0x00, 0xc8]) =
        .ok ⟨200, by decide⟩ ⟨.memory, [], 3⟩ ∧
      lenient.int .u8 (.ofBytes .memory [0xca, 0x43, 0x48, 0x00, 0x00]) =
        .ok ⟨200, by decide⟩ ⟨.memory, [], 5⟩ := by
  have h : Numeral [0xd1, 0x00, 0xc8] (.int ⟨200, by decide⟩) :=
    .signed (by decide) rfl rfl
  have hworth : (.ofNat 0x43480000 : Single).toRat? = some ((200 : Int) : ℚ) :=
    FloatBits.toInt?_eq_some_iff.mp rfl
  exact ⟨h, ((int_takes_worth .u8 .memory [] 0).1 _ _ h).2 .widening (by decide),
    (((int_takes_worth .u8 .memory [] 0).2 .single [0x43, 0x48, 0x00, 0x00] rfl).1
      ⟨200, by decide⟩ _).mpr ⟨hworth, rfl⟩⟩

end DecodePolicy

/-! ### Floats -/

namespace Number

variable {p : Precision} {n : Number} {r : ℚ} {y : FloatBits p}

theorem toFloat?_eq_none_iff (hr : n.toRat? = some r) :
    n.toFloat? p = none ↔ n.isInteger ∨ p.greatest < |r| := by
  cases n with
  | int i =>
      refine iff_of_true ?_ (.inl rfl)
      cases p <;> rfl
  | float x =>
      have hfloating : ¬ (float x).isInteger := Bool.false_ne_true
      rw [or_iff_right hfloating]
      cases p with
      | double =>
          exact iff_of_false (Option.some_ne_none x) (not_lt.mpr (FloatBits.abs_le_greatest hr))
      | single =>
          obtain ⟨hfinite, rfl⟩ := FloatBits.toRat?_eq_some_iff.mp hr
          rw [← not_le, ← Double.withinSingle_iff, toFloat?, hfinite]
          split
          · next h => exact iff_of_true rfl (by simpa using h)
          · next h => exact iff_of_false (Option.some_ne_none _) (by simpa using h)

/-- A floating number keeps its worth wherever this is possible. -/
theorem toRat?_of_toFloat? (hr : n.toRat? = some r) (h : n.toFloat? p = some y) :
    y.toRat? = some r ↔ p.Holds r := by
  cases n with
  | int i => cases p <;> cases h
  | float x =>
      cases p with
      | double =>
          obtain rfl := Option.some_inj.mp h
          exact iff_of_true hr ⟨x, hr⟩
      | single =>
          rw [toFloat?] at h
          split at h
          · cases h
          · obtain rfl := Option.some_inj.mp h
            exact FloatBits.toRat?_convert_iff hr

end Number

namespace DecodePolicy

variable {p : Precision} {n : Number} {r : ℚ} {y : FloatBits p} {b : UInt8} {bs rest : Bytes}
  {s : Source}

/-- No integer of 64 bits is beyond the floats of either width. -/
theorem abs_wireInt_le (p : Precision) (i : WireInt) : |(i.val : ℚ)| ≤ p.greatest := by
  have hbits : |(i.val : ℚ)| ≤ 2 ^ 64 := by
    have hi : |i.val| ≤ 2 ^ 64 := by
      obtain ⟨hmin, hmax⟩ := i.property
      exact abs_le.mpr ⟨by omega, by omega⟩
    exact_mod_cast hi
  refine hbits.trans ?_
  cases p with
  | single => norm_num [Precision.greatest]
  | double =>
      calc (2 : ℚ) ^ 64 ≤ 2 ^ 971 := pow_le_pow_right₀ one_le_two (by decide)
        _ ≤ (2 ^ 53 - 1) * 2 ^ 971 := le_mul_of_one_le_left (by positivity) (by norm_num)

theorem floatOf?_eq_none_iff (hr : n.toRat? = some r) :
    floatOf? p n = none ↔ p.greatest < |r| := by
  cases n with
  | int i =>
      obtain rfl := Option.some_inj.mp hr
      refine iff_of_false ?_ (not_lt.mpr (abs_wireInt_le p i))
      cases p <;> exact Option.some_ne_none _
  | float x =>
      have hfloating : ¬ (Number.float x).isInteger := Bool.false_ne_true
      exact (Number.toFloat?_eq_none_iff hr).trans (or_iff_right hfloating)

/-- Where integers may stand for floats they, too, keep their worth wherever
this is possible. -/
theorem toRat?_of_floatOf? (hr : n.toRat? = some r) (h : floatOf? p n = some y) :
    y.toRat? = some r ↔ p.Holds r := by
  cases n with
  | int i =>
      obtain rfl := Option.some_inj.mp hr
      cases p with
      | double =>
          obtain rfl := Option.some_inj.mp h
          exact FloatBits.toRat?_ofInt_iff i.val
      | single =>
          obtain rfl := Option.some_inj.mp h
          refine ⟨fun hy => ⟨_, hy⟩, fun hholds => ?_⟩
          -- the first of the two roundings is exact where the second can be
          have hdouble := (FloatBits.toRat?_ofInt_iff i.val).mpr (Precision.holds_double hholds)
          exact (FloatBits.toRat?_convert_iff hdouble).mpr hholds
  | float x => exact Number.toRat?_of_toFloat? hr h

theorem widening_float (h : Numeral (b :: bs) n) (hl : s.left = b :: bs ++ rest) :
    widening.float p s =
      if n.isInteger then .error (.unexpectedFormat (.marker .float (.ofByte b))) s
      else fit n (n.toFloat? p) (s.advance (b :: bs).length) := by
  rw [Get.float_widening]
  cases n with
  | int i =>
      obtain ⟨_, _, hcons, he⟩ : Begins (b :: bs) .integer := begins_numeral h
      obtain ⟨rfl, rfl⟩ := List.cons.inj hcons
      refine Get.fitting_refused hl ?_
      rw [he]
      decide
  | float x => exact Get.fitting_of_numeral h hl rfl

theorem lenient_float (h : Numeral bs n) (hl : s.left = bs ++ rest) :
    lenient.float p s = fit n (floatOf? p n) (s.advance bs.length) := by
  rw [Get.float_lenient]
  exact Get.fitting_of_numeral h hl (Get.isNumber_entity n)

/-- A float type that has a float of a finite number's worth takes this one. If
it has none, it takes another float, or complains if the number is beyond the
greatest of its own. -/
theorem float_keeps_worth_iff (p : Precision) {n : Number} {r : ℚ} (hr : n.toRat? = some r) :
    (∀ y, n.toFloat? p = some y → (y.toRat? = some r ↔ p.Holds r)) ∧
    (n.toFloat? p = none ↔ n.isInteger ∨ p.greatest < |r|) ∧
    ∀ (b : UInt8) (bs : Bytes), Numeral (b :: bs) n →
      ∀ (kind : SourceKind) (rest : Bytes) (position : Nat),
        let s : Source := ⟨kind, b :: bs ++ rest, position⟩
        let u : Source := ⟨kind, rest, position + (b :: bs).length⟩
        (∀ y v, widening.float p s = .ok y v ↔ n.toFloat? p = some y ∧ v = u) ∧
        (∀ e v, widening.float p s = .error e v ↔
          n.isInteger ∧ e = .unexpectedFormat (.marker .float (.ofByte b)) ∧ v = s ∨
            ¬ n.isInteger ∧ p.greatest < |r| ∧ e = .invalidData (.outOfRange n) ∧ v = u) ∧
        (∀ y v, lenient.float p s = .ok y v → v = u ∧ (y.toRat? = some r ↔ p.Holds r)) ∧
        ∀ e v, lenient.float p s = .error e v ↔
          p.greatest < |r| ∧ e = .invalidData (.outOfRange n) ∧ v = u := by
  have hnone := Number.toFloat?_eq_none_iff (p := p) hr
  refine ⟨fun y hy => Number.toRat?_of_toFloat? hr hy, hnone, fun b bs h kind rest position => ?_⟩
  intro s u
  have hadvance : s.advance (b :: bs).length = u := Source.advance_mk _ rest
  have hlenient : lenient.float p s = fit n (floatOf? p n) u := hadvance ▸ lenient_float h rfl
  have hwidening := hadvance ▸ widening_float (p := p) (s := s) h rfl
  refine ⟨fun y v => ?_, fun e v => ?_, fun y v hy => ?_, fun e v => ?_⟩
  · rw [hwidening]
    split
    · next hint =>
        refine iff_of_false (fun hok => by cases hok) fun hsome => ?_
        exact Option.some_ne_none y (hsome.1.symm.trans (hnone.mpr (.inl hint)))
    · exact fit_eq_ok_iff
  · rw [hwidening]
    split
    · next hint => simp [hint, eq_comm]
    · next hint =>
        rw [fit_eq_error_iff, hnone, or_iff_right hint, and_iff_right hint]
        simp [hint]
  · rw [hlenient, fit_eq_ok_iff] at hy
    exact ⟨hy.2, toRat?_of_floatOf? hr hy.1⟩
  · rw [hlenient, fit_eq_error_iff, floatOf?_eq_none_iff hr]

theorem float_keeps_worth_iff_of_five :
    (Number.int ⟨5, by decide⟩).toRat? = some 5 ∧ Numeral [0x05] (.int ⟨5, by decide⟩) ∧
      ∃ y : Single, lenient.float .single (.ofBytes .memory [0x05]) = .ok y ⟨.memory, [], 1⟩ ∧
        y.toRat? = some 5 := by
  have h : Numeral [0x05] (.int ⟨5, by decide⟩) := .positiveFixint (by decide) rfl
  have hholds : Precision.single.Holds 5 :=
    ⟨.ofNat 0x40a00000, FloatBits.toInt?_eq_some_iff (i := 5).mp rfl⟩
  refine ⟨rfl, h, Double.narrow (.ofInt 5), rfl, ?_⟩
  exact (((float_keeps_worth_iff .single rfl).2.2 _ _ h .memory [] 0).2.2.1 _ _ rfl).2.mpr hholds

/-- Numbers that the target has no float for are not refused: 2^53 + 1 is read into
a double as 2^53, and the double nearest to a tenth into a single as another
number. -/
theorem float_worth_lost :
    (∃ y : Double, Numeral [0xcf, 0x00, 0x20, 0x00, 0x00, 0x00, 0x00, 0x00, 0x01]
        (.int ⟨9007199254740993, by decide⟩) ∧
      lenient.float .double
          (.ofBytes .memory [0xcf, 0x00, 0x20, 0x00, 0x00, 0x00, 0x00, 0x00, 0x01]) =
        .ok y ⟨.memory, [], 9⟩ ∧ y.toRat? = some 9007199254740992) ∧
    ∃ (x : Double) (y : Single), Numeral [0xcb, 0x3f, 0xb9, 0x99, 0x99, 0x99, 0x99, 0x99, 0x9a]
        (.float x) ∧
      x.isFinite ∧ Number.toFloat? .single (.float x) = some y ∧
      widening.float .single
          (.ofBytes .memory [0xcb, 0x3f, 0xb9, 0x99, 0x99, 0x99, 0x99, 0x99, 0x9a]) =
        .ok y ⟨.memory, [], 9⟩ ∧ y.toRat? ≠ x.toRat? := by
  have h : Numeral [0xcf, 0x00, 0x20, 0x00, 0x00, 0x00, 0x00, 0x00, 0x01]
      (.int ⟨9007199254740993, by decide⟩) := .unsigned (by decide) rfl (by decide)
  refine ⟨⟨.ofInt 9007199254740993, h, lenient_float h rfl, ?_⟩,
    .ofNat 0x3fb999999999999a, Double.narrow (.ofNat 0x3fb999999999999a), .double rfl, rfl, rfl,
    rfl, fun hworth => ?_⟩
  · exact (FloatBits.toInt?_eq_some_iff (i := 9007199254740992)).mp (by decide)
  · rw [← Single.toRat?_widen] at hworth
    have hne : (Single.widen (Double.narrow (.ofNat 0x3fb999999999999a)) ==
        .ofNat 0x3fb999999999999a) = false := by decide
    have hfinite : (.ofNat 0x3fb999999999999a : Double).toRat? = some _ :=
      FloatBits.toRat?_of_lt (by decide)
    have heq := FloatBits.beq_of_toRat? (hworth.trans hfinite) hfinite
    cases hne.symm.trans heq

end DecodePolicy

end MsgPack
