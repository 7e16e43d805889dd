import MsgPack.Proofs.Wire.Costs
import MsgPack.Proofs.Wire.Targets

/-!
The policies for numbers. The decoding policies form a chain: what a stricter
one reads, a laxer one reads in the same way. The aggressive encoding policy
keeps what a float is worth. What it writes is the shortest integer if the float
is one, and otherwise a float with the same bits; the lenient decoding policy
has the float back from either.
-/

namespace MsgPack

open Grammar (Numeral)

/-! ### Decoding -/

namespace Get

variable {α : Type} {g g' : Get α} {L L' : Language α} {s t : Source} {a : α}

/-- A reader does what another one does, wherever its language has more. -/
theorem Accepts.ok_mono (h : Accepts g L) (h' : Accepts g' L') (hL : ∀ bs a, L bs a → L' bs a)
    (hg : g s = .ok a t) : g' s = .ok a t := by
  obtain ⟨bs, rest, hl, ha, rfl⟩ := h.sound hg
  exact h'.complete hl (hL bs a ha)

end Get

/-- A float is found in the number it was read as. NaNs come back as NaNs. -/
theorem Number.toFloat?_ofFloat (p : Precision) (x : FloatBits p) :
    ∃ y, (ofFloat p x).toFloat? p = some y ∧ (y = x ∨ y.isNaN ∧ x.isNaN) := by
  cases p with
  | single => exact ⟨_, Single.toFloat_widen x, Single.same_narrow_widen x⟩
  | double => exact ⟨x, rfl, .inl rfl⟩

namespace DecodePolicy

variable {s u : Source}

section Chain

variable {t : IntType} {i : t.Value} {p : Precision} {x : FloatBits p}

theorem int_widening_of_exact (h : exact.int t s = .ok i u) : widening.int t s = .ok i u := by
  rw [Get.int_widening]
  refine (Get.accepts_exactInt t).ok_mono Get.accepts_fitting ?_ h
  rintro _ j ⟨b, bs, rfl, hj⟩
  exact ⟨_, Get.numeral_of_exactIntAfter hj, rfl, IntType.ofInt?_eq_some_iff.mpr rfl⟩

theorem int_lenient_of_widening (h : widening.int t s = .ok i u) : lenient.int t s = .ok i u := by
  rw [Get.int_widening] at h
  rw [Get.int_lenient]
  refine Get.accepts_fitting.ok_mono Get.accepts_fitting ?_ h
  rintro bs j ⟨n, hn, -, hj⟩
  refine ⟨n, hn, Get.isNumber_entity n, ?_⟩
  cases n with
  | int k => exact hj
  | float y => cases hj

theorem float_widening_of_exact (h : exact.float p s = .ok x u) :
    ∃ y, widening.float p s = .ok y u ∧ (y = x ∨ y.isNaN ∧ x.isNaN) := by
  obtain ⟨_, rest, hl, ⟨b, bs, rfl, hx⟩, rfl⟩ := (Get.accepts_exactFloat p).sound h
  obtain ⟨y, hy, hsame⟩ := Number.toFloat?_ofFloat p x
  have hentity : some (Number.ofFloat p x).entity = some .floatingPoint := by cases p <;> rfl
  refine ⟨y, ?_, hsame⟩
  rw [Get.float_widening]
  exact Get.accepts_fitting.complete hl ⟨_, Get.numeral_of_exactFloatAfter hx, hentity, hy⟩

theorem float_lenient_of_widening (h : widening.float p s = .ok x u) :
    lenient.float p s = .ok x u := by
  rw [Get.float_widening] at h
  rw [Get.float_lenient]
  refine Get.accepts_fitting.ok_mono Get.accepts_fitting ?_ h
  rintro bs y ⟨n, hn, hentity, hy⟩
  refine ⟨n, hn, Get.isNumber_entity n, ?_⟩
  cases n with
  | int k => cases hentity
  | float z => exact hy

end Chain

/-- What a policy reads, every laxer policy reads: the same value up to the bits
of a NaN, from the same bytes. -/
theorem reads_as_stricter (s u : Source) :
    (∀ (t : IntType) (i : t.Value),
      (exact.int t s = .ok i u → widening.int t s = .ok i u) ∧
        (widening.int t s = .ok i u → lenient.int t s = .ok i u)) ∧
    ∀ (p : Precision) (x : FloatBits p),
      (exact.float p s = .ok x u →
        ∃ y, widening.float p s = .ok y u ∧ (y = x ∨ y.isNaN ∧ x.isNaN)) ∧
        (widening.float p s = .ok x u → lenient.float p s = .ok x u) :=
  ⟨fun _ _ => ⟨int_widening_of_exact, int_lenient_of_widening⟩,
    fun _ _ => ⟨float_widening_of_exact, float_lenient_of_widening⟩⟩

theorem reads_as_stricter_of_scalars :
    (exact.int .u8 (.ofBytes .memory [0xcc, 0xc8]) = .ok ⟨200, by decide⟩ ⟨.memory, [], 2⟩ ∧
      lenient.int .u8 (.ofBytes .memory [0xcc, 0xc8]) = .ok ⟨200, by decide⟩ ⟨.memory, [], 2⟩) ∧
    exact.float .single (.ofBytes .memory [0xca, 0x3f, 0xc0, 0x00, 0x00]) =
        .ok (.ofNat 0x3fc00000) ⟨.memory, [], 5⟩ ∧
      ∃ y, lenient.float .single (.ofBytes .memory [0xca, 0x3f, 0xc0, 0x00, 0x00]) =
        .ok y ⟨.memory, [], 5⟩ := by
  have hint : exact.int .u8 (.ofBytes .memory [0xcc, 0xc8]) =
      .ok ⟨200, by decide⟩ ⟨.memory, [], 2⟩ := rfl
  have hfloat : exact.float .single (.ofBytes .memory [0xca, 0x3f, 0xc0, 0x00, 0x00]) =
      .ok (.ofNat 0x3fc00000) ⟨.memory, [], 5⟩ := rfl
  obtain ⟨hwidening, hlenient⟩ := (reads_as_stricter _ _).1 .u8 ⟨200, by decide⟩
  obtain ⟨y, hy, -⟩ := ((reads_as_stricter _ _).2 .single _).1 hfloat
  exact ⟨⟨hint, hlenient (hwidening hint)⟩, hfloat, y, ((reads_as_stricter _ _).2 .single y).2 hy⟩

end DecodePolicy

/-! ### Encoding -/

namespace EncodePolicy

variable {p : Precision} {x : FloatBits p} {i : WireInt}

theorem integral?_eq_some_iff : integral? p x = some i ↔ x.toRat? = some (i.val : ℚ) := by
  cases p with
  | single => exact Double.toWireInt?_eq_some_iff.trans (by rw [Single.toRat?_widen])
  | double => exact Double.toWireInt?_eq_some_iff

theorem integral?_eq_none_iff :
    integral? p x = none ↔ ∀ i : WireInt, x.toRat? ≠ some (i.val : ℚ) := by
  rw [Option.eq_none_iff_forall_ne_some]
  exact forall_congr' fun i => not_congr integral?_eq_some_iff

theorem numberOf_of_integral (h : integral? p x = some i) : aggressive.numberOf p x = .int i := by
  unfold numberOf
  dsimp only
  rw [h]

theorem numberOf_of_not_integral (h : integral? p x = none) :
    aggressive.numberOf p x = .ofFloat p x := by
  unfold numberOf
  dsimp only
  rw [h]

/-- The float is found in the number that it is written as. -/
theorem floatOf?_numberOf (hx : ¬ x.isNaN) :
    ∃ y, DecodePolicy.floatOf? p (aggressive.numberOf p x) = some y ∧ (y == x) = true := by
  cases hi : integral? p x with
  | some i =>
      have hworth := integral?_eq_some_iff.mp hi
      have hr : (Number.int i).toRat? = some (i.val : ℚ) := rfl
      rw [numberOf_of_integral hi]
      cases hy : DecodePolicy.floatOf? p (.int i) with
      | some y =>
          have hkept := (DecodePolicy.toRat?_of_floatOf? hr hy).mpr ⟨x, hworth⟩
          exact ⟨y, rfl, FloatBits.beq_of_toRat? hkept hworth⟩
      | none =>
          have hbeyond := (DecodePolicy.floatOf?_eq_none_iff hr).mp hy
          exact absurd (FloatBits.abs_le_greatest hworth) (not_le.mpr hbeyond)
  | none =>
      rw [numberOf_of_not_integral hi]
      obtain ⟨y, hy, hsame⟩ := Number.toFloat?_ofFloat p x
      obtain rfl : y = x := hsame.resolve_right fun hnan => hx hnan.2
      refine ⟨y, ?_, FloatBits.beq_self hx⟩
      cases p <;> exact hy

/-- An integer that a float is written as takes no more bytes than any spelling of
it. -/
theorem length_aggressive_le {bs bs' : Bytes} (hi : integral? p x = some i)
    (hbs : Put.Writes (aggressive.float p x) bs) (h : Numeral bs' (.int i)) :
    bs.length ≤ bs'.length := by
  have hshort := Number.length_bytes_le h fun x hx => by cases hx
  rwa [Number.bytes_int_tree, ← float_of_integral hi, hbs.bytes_eq] at hshort

/-- Aggressively written, a float that is an integer of 64 bits is read as this
integer, in the shortest of its spellings, and another float as itself. Where
integers may stand for floats a float equal to the first one is read. -/
theorem aggressive_keeps_value (p : Precision) (x : FloatBits p) :
    ∃ (bs : Bytes) (n : Number), Put.Writes (aggressive.float p x) bs ∧
      (∀ (kind : SourceKind) (rest : Bytes) (position : Nat),
        Get.anyNumber ⟨kind, bs ++ rest, position⟩ = .ok n ⟨kind, rest, position + bs.length⟩) ∧
      ((∃ i : WireInt, x.toRat? = some (i.val : ℚ) ∧ n = .int i ∧
          ∀ bs', Numeral bs' (.int i) → bs.length ≤ bs'.length) ∨
        (∀ i : WireInt, x.toRat? ≠ some (i.val : ℚ)) ∧ n = .ofFloat p x) ∧
      (x.isNaN ∨ ∃ y : FloatBits p, (y == x) = true ∧
        ∀ (kind : SourceKind) (rest : Bytes) (position : Nat),
          DecodePolicy.lenient.float p ⟨kind, bs ++ rest, position⟩ =
            .ok y ⟨kind, rest, position + bs.length⟩) := by
  obtain ⟨bs, hput, hn⟩ := aggressive.float_eq p x
  have hwrites := Put.Writes.single hput
  refine ⟨bs, aggressive.numberOf p x, hwrites, fun kind rest position => ?_, ?_, ?_⟩
  · rw [Get.accepts_anyNumber.complete rfl hn, Source.advance_mk]
  · cases hi : integral? p x with
    | some i =>
        exact .inl ⟨i, integral?_eq_some_iff.mp hi, numberOf_of_integral hi, fun bs' h =>
          length_aggressive_le hi hwrites h⟩
    | none => exact .inr ⟨integral?_eq_none_iff.mp hi, numberOf_of_not_integral hi⟩
  · by_cases hx : x.isNaN
    · exact .inl hx
    · obtain ⟨y, hy, heq⟩ := floatOf?_numberOf hx
      refine .inr ⟨y, heq, fun kind rest position => ?_⟩
      rw [DecodePolicy.lenient_float hn rfl, hy, Source.advance_mk]
      rfl

end EncodePolicy

end MsgPack
