import MsgPack.Number
import MsgPack.Proofs.FloatBits.Bits

/-!
Conversions that lose nothing. Rounding depends on what a dyadic number is worth
and not on how it is split into mantissa and exponent; what a pattern is worth
rounds to that pattern; and the mantissa of a single fits into a double after a
shift. So a single survives being widened and narrowed again, unless it is a
NaN, which comes back as a NaN.
-/

namespace MsgPack

/-! ### Rounding -/

theorem roundDiv_mul_right {c : Nat} (hc : 0 < c) (num den : Nat) :
    roundDiv (num * c) (den * c) = roundDiv num den := by
  have hlt (a b : Nat) : 2 * (a * c) < b * c ↔ 2 * a < b := by
    rw [← Nat.mul_assoc, Nat.mul_lt_mul_right hc]
  have hlt' (a b : Nat) : b * c < 2 * (a * c) ↔ b < 2 * a := by
    rw [← Nat.mul_assoc, Nat.mul_lt_mul_right hc]
  simp only [roundDiv, Nat.mul_div_mul_right _ _ hc, Nat.mul_mod_mul_right, hlt, hlt']

theorem roundDiv_one (n : Nat) : roundDiv n 1 = n := by
  simp [roundDiv, Nat.mod_one]

theorem roundDiv_mul_self {den : Nat} (hden : 0 < den) (n : Nat) : roundDiv (n * den) den = n := by
  have h := roundDiv_mul_right hden n 1
  rwa [Nat.one_mul, roundDiv_one] at h

theorem log2_mul_two_pow {n : Nat} (hn : n ≠ 0) (k : Nat) : (n * 2 ^ k).log2 = n.log2 + k := by
  induction k with
  | zero => simp
  | succ k ih =>
      have hne : n * 2 ^ k ≠ 0 := Nat.mul_ne_zero hn (Nat.ne_of_gt (Nat.two_pow_pos k))
      rw [Nat.pow_succ, ← Nat.mul_assoc, Nat.mul_comm _ 2, Nat.log2_two_mul hne, ih]
      rfl

namespace Dyadic

/-- The mantissa in units of `2 ^ ulp`. -/
def align (d : Dyadic) (ulp : Int) : Nat :=
  if ulp ≤ d.exponent then d.mantissa * 2 ^ (d.exponent - ulp).toNat
  else roundDiv d.mantissa (2 ^ (ulp - d.exponent).toNat)

/-- The same number with `k` more bits in the mantissa. -/
def shift (d : Dyadic) (k : Nat) : Dyadic := ⟨d.negative, d.mantissa * 2 ^ k, d.exponent - k⟩

theorem align_of_le {d : Dyadic} {ulp : Int} (h : ulp ≤ d.exponent) :
    d.align ulp = d.mantissa * 2 ^ (d.exponent - ulp).toNat := if_pos h

theorem align_of_lt {d : Dyadic} {ulp : Int} (h : d.exponent < ulp) :
    d.align ulp = roundDiv d.mantissa (2 ^ (ulp - d.exponent).toNat) := if_neg (Int.not_le.mpr h)

theorem exponent_shift (d : Dyadic) (k : Nat) : (d.shift k).exponent = d.exponent - k := rfl

theorem mantissa_shift (d : Dyadic) (k : Nat) : (d.shift k).mantissa = d.mantissa * 2 ^ k := rfl

theorem align_shift (d : Dyadic) (k : Nat) (ulp : Int) : (d.shift k).align ulp = d.align ulp := by
  have hexp := d.exponent_shift k
  rcases Int.lt_or_le d.exponent ulp with hlt | hle
  · -- both are cut off: the shift cancels in the division
    have hsum : (ulp - (d.shift k).exponent).toNat = (ulp - d.exponent).toNat + k := by omega
    rw [align_of_lt hlt, align_of_lt (by omega), hsum, Nat.pow_add, mantissa_shift]
    exact roundDiv_mul_right (Nat.two_pow_pos k) _ _
  · rcases Int.lt_or_le (d.shift k).exponent ulp with hlt | hle'
    · -- only the shifted one is cut off, and only zeros
      have hsum : k = (d.exponent - ulp).toNat + (ulp - (d.shift k).exponent).toNat := by omega
      have hpow : d.mantissa * 2 ^ k = d.mantissa * 2 ^ (d.exponent - ulp).toNat *
          2 ^ (ulp - (d.shift k).exponent).toNat := by
        rw [Nat.mul_assoc, ← Nat.pow_add, ← hsum]
      rw [align_of_le hle, align_of_lt hlt, mantissa_shift, hpow]
      exact roundDiv_mul_self (Nat.two_pow_pos _) _
    · have hsum : k + ((d.shift k).exponent - ulp).toNat = (d.exponent - ulp).toNat := by omega
      rw [align_of_le hle, align_of_le hle', mantissa_shift, Nat.mul_assoc, ← Nat.pow_add, hsum]

end Dyadic

namespace FloatBits

variable {p : Precision}

/-- The exponent of the last place that a number rounds to. -/
def lastPlace (p : Precision) (d : Dyadic) : Int :=
  max p.minExponent (d.exponent + d.mantissa.log2 - p.fractionBits)

theorem ofDyadic_eq {d : Dyadic} (hd : d.mantissa ≠ 0) :
    (ofDyadic d : FloatBits p) = ofMagnitude d.negative
      ((lastPlace p d - p.minExponent).toNat * 2 ^ p.fractionBits + d.align (lastPlace p d)) := by
  rw [ofDyadic, if_neg hd]
  rfl

theorem lastPlace_shift {d : Dyadic} (hd : d.mantissa ≠ 0) (k : Nat) :
    lastPlace p (d.shift k) = lastPlace p d := by
  simp only [lastPlace, Dyadic.shift, log2_mul_two_pow hd]
  congr 1
  omega

/-- Rounding sees only what a number is worth. -/
theorem ofDyadic_shift {d : Dyadic} (hd : d.mantissa ≠ 0) (k : Nat) :
    (ofDyadic (d.shift k) : FloatBits p) = ofDyadic d := by
  have hshift : (d.shift k).mantissa ≠ 0 := Nat.mul_ne_zero hd (Nat.ne_of_gt (Nat.two_pow_pos k))
  rw [ofDyadic_eq hshift, ofDyadic_eq hd, lastPlace_shift hd, Dyadic.align_shift]
  rfl

/-! ### Patterns and what they are worth -/

/-- The magnitude is that of `m` in the `k`-th binade, where a mantissa that
does not fill the significand stands in the lowest one. -/
structure Splits (x : FloatBits p) (k m : Nat) : Prop where
  magnitude_eq : x.magnitude = k * 2 ^ p.fractionBits + m
  lt : m < 2 ^ (p.fractionBits + 1)
  normal : k = 0 ∨ 2 ^ p.fractionBits ≤ m

theorem exists_splits (x : FloatBits p) : ∃ k m, x.Splits k m := by
  have hsplit := Nat.div_add_mod' x.magnitude (2 ^ p.fractionBits)
  have hmod := Nat.mod_lt x.magnitude (Nat.two_pow_pos p.fractionBits)
  cases hfield : x.magnitude / 2 ^ p.fractionBits with
  | zero =>
      refine ⟨0, x.magnitude, ⟨by omega, ?_, .inl rfl⟩⟩
      rw [hfield] at hsplit
      omega
  | succ k =>
      refine ⟨k, 2 ^ p.fractionBits + x.magnitude % 2 ^ p.fractionBits, ⟨?_, by omega, .inr ?_⟩⟩
      · rw [hfield, Nat.succ_mul] at hsplit
        omega
      · exact Nat.le_add_right _ _

theorem Splits.dyadic_eq {x : FloatBits p} {k m : Nat} (h : x.Splits k m) :
    x.dyadic = ⟨x.negative, m, p.minExponent + k⟩ := by
  have hlt := h.lt
  rw [Nat.pow_succ] at hlt
  have hpos := Nat.two_pow_pos p.fractionBits
  rcases Nat.lt_or_ge m (2 ^ p.fractionBits) with hm | hm
  · obtain rfl : k = 0 := h.normal.resolve_right (Nat.not_le.mpr hm)
    have hmagnitude : x.magnitude = m := by simpa using h.magnitude_eq
    simp [dyadic, hmagnitude, Nat.div_eq_of_lt hm, Nat.mod_eq_of_lt hm]
  · obtain ⟨frac, rfl⟩ := Nat.exists_eq_add_of_le hm
    have hmagnitude : x.magnitude = frac + 2 ^ p.fractionBits * (k + 1) := by
      rw [h.magnitude_eq, Nat.mul_succ, Nat.mul_comm]
      omega
    have hfrac : frac < 2 ^ p.fractionBits := by omega
    have hfield : x.magnitude / 2 ^ p.fractionBits = k + 1 := by
      rw [hmagnitude, Nat.add_mul_div_left _ _ hpos, Nat.div_eq_of_lt hfrac, Nat.zero_add]
    have hmod : x.magnitude % 2 ^ p.fractionBits = frac := by
      rw [hmagnitude, Nat.add_mul_mod_self_left, Nat.mod_eq_of_lt hfrac]
    simp [dyadic, hfield, hmod]

theorem Splits.log2_le {x : FloatBits p} {k m : Nat} (h : x.Splits k m) :
    m.log2 ≤ p.fractionBits := by
  by_cases hm : m = 0
  · rw [hm, Nat.log2_zero]
    exact Nat.zero_le _
  · exact Nat.le_of_lt_succ ((Nat.log2_lt hm).mpr h.lt)

theorem Splits.log2_eq {x : FloatBits p} {k m : Nat} (h : x.Splits k m) (hk : k ≠ 0) :
    m.log2 = p.fractionBits := by
  have hm := h.normal.resolve_left hk
  have hne : m ≠ 0 := Nat.ne_of_gt (Nat.lt_of_lt_of_le (Nat.two_pow_pos _) hm)
  exact Nat.le_antisymm h.log2_le ((Nat.le_log2 hne).mpr hm)

theorem ofMagnitude_eq {negative : Bool} {magnitude : Nat} (h : magnitude < p.infinityMagnitude) :
    (ofMagnitude negative magnitude : FloatBits p) =
      ⟨negative, magnitude, Nat.lt_trans h p.infinityMagnitude_lt⟩ := dif_pos h

theorem ofMagnitude_magnitude {x : FloatBits p} (hx : x.magnitude < p.infinityMagnitude) :
    ofMagnitude x.negative x.magnitude = x := ofMagnitude_eq hx

/-- What a finite pattern is worth rounds to the pattern. -/
theorem ofDyadic_dyadic {x : FloatBits p} (hx : x.magnitude < p.infinityMagnitude) :
    ofDyadic x.dyadic = x := by
  obtain ⟨k, m, h⟩ := x.exists_splits
  rw [h.dyadic_eq]
  by_cases hm : m = 0
  · have hk : k = 0 := by
      refine h.normal.resolve_right fun hle => ?_
      have hpos := Nat.two_pow_pos p.fractionBits
      omega
    have hzero : x.magnitude = 0 := by simp [h.magnitude_eq, hk, hm]
    rw [ofDyadic, if_pos hm, ← hzero]
    exact ofMagnitude_magnitude hx
  · have hplace : lastPlace p ⟨x.negative, m, p.minExponent + k⟩ = p.minExponent + k := by
      have hle := h.log2_le
      -- in the lowest binade the last place is the least there is, above it the mantissa is full
      by_cases hk : k = 0
      · simp only [lastPlace]
        omega
      · have heq := h.log2_eq hk
        simp only [lastPlace]
        omega
    have hk : (p.minExponent + (k : Int) - p.minExponent).toNat = k := by omega
    rw [ofDyadic_eq hm, hplace, Dyadic.align_of_le (Int.le_refl _), hk, Int.sub_self]
    simp only [Int.toNat_zero, Nat.pow_zero, Nat.mul_one, ← h.magnitude_eq]
    exact ofMagnitude_magnitude hx

/-! ### Singles as doubles -/

theorem infinityMagnitude_single : Precision.single.infinityMagnitude = 255 * 2 ^ 23 := rfl

theorem infinityMagnitude_double : Precision.double.infinityMagnitude = 2047 * 2 ^ 52 := rfl

theorem widened_lt {k log wide : Nat} (hk : k < 254) (hlog : log ≤ 23) (hwide : wide < 2 ^ 53) :
    (873 + k + log) * 2 ^ 52 + wide < Precision.double.infinityMagnitude := by
  rw [infinityMagnitude_double]
  omega

theorem widened_le {k m log : Nat} (hlog : log ≤ 23) (hwide : m * 2 ^ (52 - log) < 2 ^ 53)
    (hfinite : k * 2 ^ 23 + m < 255 * 2 ^ 23) (hnormal : k ≠ 0 → log = 23) :
    (873 + k + log) * 2 ^ 52 + m * 2 ^ (52 - log) ≤ Double.maxSingleMagnitude := by
  show _ ≤ 0x47efffffe0000000
  by_cases hk : k = 0
  · omega
  · obtain rfl := hnormal hk
    omega

/-- The mantissa of a single, shifted up to fill the significand of a double. -/
theorem widen_splits {x : Single} {k m : Nat} (h : x.Splits k m) (hm : m ≠ 0)
    (hx : x.magnitude < Precision.single.infinityMagnitude) :
    (ofDyadic x.dyadic : Double).Splits (873 + k + m.log2) (m * 2 ^ (52 - m.log2)) := by
  replace hx : k * 2 ^ 23 + m < 255 * 2 ^ 23 := by
    rwa [h.magnitude_eq, infinityMagnitude_single] at hx
  have hlog : m.log2 ≤ 23 := h.log2_le
  have hk : k < 254 := by
    rcases h.normal with rfl | hnormal
    · decide
    · replace hnormal : 2 ^ 23 ≤ m := hnormal
      omega
  -- shifted until its leading bit is the 53rd, the mantissa fills the significand
  have hlow : 2 ^ 52 ≤ m * 2 ^ (52 - m.log2) :=
    calc 2 ^ 52 = 2 ^ m.log2 * 2 ^ (52 - m.log2) := by
          rw [← Nat.pow_add, Nat.add_sub_of_le (by omega)]
      _ ≤ m * 2 ^ (52 - m.log2) := Nat.mul_le_mul_right _ (Nat.log2_self_le hm)
  have hhigh : m * 2 ^ (52 - m.log2) < 2 ^ 53 :=
    calc m * 2 ^ (52 - m.log2) < 2 ^ (m.log2 + 1) * 2 ^ (52 - m.log2) :=
          Nat.mul_lt_mul_of_pos_right Nat.lt_log2_self (Nat.two_pow_pos _)
      _ = 2 ^ 53 := by rw [← Nat.pow_add, show m.log2 + 1 + (52 - m.log2) = 53 by omega]
  have hplace : lastPlace .double ⟨x.negative, m, -149 + k⟩ = -1074 + (873 + k + m.log2 : Nat) := by
    simp only [lastPlace, Precision.minExponent, Precision.fractionBits]
    omega
  have halign : Dyadic.align ⟨x.negative, m, -149 + k⟩ (-1074 + (873 + k + m.log2 : Nat)) =
      m * 2 ^ (52 - m.log2) := by
    rw [Dyadic.align_of_le (by dsimp only; omega)]
    dsimp only
    congr 2
    omega
  have hfinite : (873 + k + m.log2) * 2 ^ 52 + m * 2 ^ (52 - m.log2) <
      Precision.double.infinityMagnitude := widened_lt hk hlog hhigh
  refine ⟨?_, hhigh, .inr hlow⟩
  rw [h.dyadic_eq]
  show (ofDyadic ⟨x.negative, m, -149 + k⟩ : Double).magnitude = _
  rw [ofDyadic_eq hm, hplace, halign]
  have hfield : ((-1074 + (873 + k + m.log2 : Nat) : Int) - -1074).toNat = 873 + k + m.log2 := by
    omega
  show (ofMagnitude x.negative (Int.toNat (_ - -1074) * 2 ^ 52 + _) : Double).magnitude = _
  rw [hfield, ofMagnitude_eq hfinite]
  rfl

/-! ### The three sorts of patterns under conversion -/

section Convert

variable {q : Precision} {x : FloatBits p}

theorem convert_of_lt (hx : x.magnitude < p.infinityMagnitude) :
    (x.convert : FloatBits q) = ofDyadic x.dyadic := if_pos (decide_eq_true hx)

theorem convert_of_eq (hx : x.magnitude = p.infinityMagnitude) :
    (x.convert : FloatBits q) = infinity x.negative := by
  simp [convert, isFinite, isInfinite, hx]

theorem convert_of_gt (hx : p.infinityMagnitude < x.magnitude) :
    (x.convert : FloatBits q) = x.convertNaN := by
  have hfinite : ¬ x.magnitude < p.infinityMagnitude := by omega
  have hinfinite : x.magnitude ≠ p.infinityMagnitude := by omega
  simp [convert, isFinite, isInfinite, hfinite, hinfinite]

theorem isNaN_iff : x.isNaN ↔ p.infinityMagnitude < x.magnitude := decide_eq_true_iff

/-- With its quiet bit set a payload is neither zero nor too wide. -/
theorem quiet_bounds {width payload : Nat} (hwidth : width ≠ 0) (h : payload < 2 ^ width) :
    0 < (if payload.testBit (width - 1) then payload else payload + 2 ^ (width - 1)) ∧
      (if payload.testBit (width - 1) then payload else payload + 2 ^ (width - 1)) <
        2 ^ width := by
  obtain ⟨bits, rfl⟩ := Nat.exists_eq_succ_of_ne_zero hwidth
  have hpos := Nat.two_pow_pos bits
  rw [Nat.pow_succ] at *
  rw [Nat.succ_sub_one]
  cases hbit : payload.testBit bits with
  | true =>
      have hle : 2 ^ bits ≤ payload := Nat.ge_two_pow_of_testBit hbit
      simp only [if_true]
      omega
  | false =>
      have hlt : payload < 2 ^ bits := by
        refine Nat.lt_of_not_le fun hle => ?_
        have hquotient : payload / 2 ^ bits = 1 := Nat.div_eq_of_lt_le (by omega) (by omega)
        simp [Nat.testBit_eq_decide_div_mod_eq, hquotient] at hbit
      simp only [Bool.false_eq_true, if_false]
      omega

theorem isNaN_of_payload (negative : Bool) {payload : Nat} (hpos : 0 < payload)
    (hlt : q.infinityMagnitude + payload < 2 ^ q.magnitudeBits) :
    FloatBits.isNaN (if h : q.infinityMagnitude + payload < 2 ^ q.magnitudeBits then
      (⟨negative, q.infinityMagnitude + payload, h⟩ : FloatBits q) else infinity negative) := by
  rw [dif_pos hlt, isNaN_iff]
  exact Nat.lt_add_of_pos_right hpos

theorem isNaN_convertNaN (x : FloatBits p) : (x.convertNaN : FloatBits q).isNaN := by
  have hwidth : q.infinityMagnitude + 2 ^ q.fractionBits = 2 ^ q.magnitudeBits := by
    cases q <;> rfl
  have hpayload : x.magnitude % 2 ^ p.fractionBits * 2 ^ q.fractionBits / 2 ^ p.fractionBits <
      2 ^ q.fractionBits := by
    rw [Nat.div_lt_iff_lt_mul (Nat.two_pow_pos _), Nat.mul_comm]
    exact Nat.mul_lt_mul_of_pos_left (Nat.mod_lt _ (Nat.two_pow_pos _)) (Nat.two_pow_pos _)
  obtain ⟨hpos, hlt⟩ := quiet_bounds (by cases q <;> decide) hpayload
  apply isNaN_of_payload x.negative hpos
  rw [← hwidth]
  exact Nat.add_lt_add_left hlt _

theorem not_isNaN_infinity (negative : Bool) : ¬ (infinity negative : FloatBits q).isNaN :=
  fun h => Nat.lt_irrefl _ (isNaN_iff.mp h)

/-- A payload with its quiet bit set. -/
def quieted (q : Precision) (payload : Nat) : Nat :=
  if payload.testBit (q.fractionBits - 1) then payload else payload + q.quietBit

theorem magnitude_convertNaN (x : FloatBits p) :
    (x.convertNaN : FloatBits q).magnitude = q.infinityMagnitude +
      quieted q (x.magnitude % 2 ^ p.fractionBits * 2 ^ q.fractionBits / 2 ^ p.fractionBits) := by
  have hfits {magnitude : Nat} (h : (if hlt : magnitude < 2 ^ q.magnitudeBits then
        (⟨x.negative, magnitude, hlt⟩ : FloatBits q) else infinity x.negative).isNaN) :
      (if hlt : magnitude < 2 ^ q.magnitudeBits then
        (⟨x.negative, magnitude, hlt⟩ : FloatBits q) else infinity x.negative).magnitude =
          magnitude := by
    by_cases hlt : magnitude < 2 ^ q.magnitudeBits
    · rw [dif_pos hlt]
    · rw [dif_neg hlt] at h
      exact absurd h (not_isNaN_infinity _)
  exact hfits (isNaN_convertNaN x)

end Convert

end FloatBits

namespace Single

open FloatBits

variable {x : Single}

theorem widen_dyadic {k m : Nat} (h : x.Splits k m) (hm : m ≠ 0)
    (hx : x.magnitude < Precision.single.infinityMagnitude) :
    (widen x).dyadic = x.dyadic.shift (52 - m.log2) := by
  have hlog : m.log2 ≤ 23 := h.log2_le
  rw [widen, convert_of_lt hx, (widen_splits h hm hx).dyadic_eq, negative_ofDyadic, h.dyadic_eq]
  show (⟨x.negative, _, -1074 + _⟩ : Dyadic) = ⟨x.negative, _, -149 + _ - _⟩
  congr 1
  omega

theorem widen_zero {k : Nat} (h : x.Splits k 0) :
    x.magnitude = 0 ∧ (widen x).magnitude = 0 := by
  have hk : k = 0 := h.normal.resolve_right (by decide)
  have hzero : x.magnitude = 0 := by simp [h.magnitude_eq, hk]
  refine ⟨hzero, ?_⟩
  rw [widen, convert_of_lt (by rw [hzero]; decide), h.dyadic_eq, ofDyadic, if_pos rfl]
  rfl

/-- Widening keeps a finite single below the greatest of them. -/
theorem withinSingle_widen (hx : x.magnitude < Precision.single.infinityMagnitude) :
    (widen x).withinSingle := by
  apply decide_eq_true
  obtain ⟨k, m, h⟩ := x.exists_splits
  by_cases hm : m = 0
  · subst hm
    rw [(widen_zero h).2]
    exact Nat.zero_le _
  · rw [widen, convert_of_lt hx, (widen_splits h hm hx).magnitude_eq]
    have hwide := (widen_splits h hm hx).lt
    rw [h.magnitude_eq, infinityMagnitude_single] at hx
    exact widened_le h.log2_le hwide hx (fun hk => h.log2_eq hk)

theorem magnitude_widen_lt (hx : x.magnitude < Precision.single.infinityMagnitude) :
    (widen x).magnitude < Precision.double.infinityMagnitude :=
  Nat.lt_of_le_of_lt (of_decide_eq_true (withinSingle_widen hx)) (by decide)

/-- Every single is a double, and is found in it again. -/
theorem narrow_widen (hx : ¬ x.isNaN) : (widen x).narrow = x := by
  rw [isNaN_iff] at hx
  rcases Nat.lt_or_ge x.magnitude Precision.single.infinityMagnitude with hlt | hge
  · obtain ⟨k, m, h⟩ := x.exists_splits
    rw [Double.narrow, convert_of_lt (magnitude_widen_lt hlt)]
    by_cases hm : m = 0
    · subst hm
      -- the two zeros come through with their signs
      obtain ⟨hzero, hwide⟩ := widen_zero h
      have hsplits : (widen x).Splits 0 0 := ⟨by simpa using hwide, by decide, .inl rfl⟩
      rw [hsplits.dyadic_eq, ofDyadic, if_pos rfl, widen, negative_convert, ← hzero]
      exact ofMagnitude_magnitude hlt
    -- widening shifts the mantissa, which rounding back does not see
    · have hmantissa : x.dyadic.mantissa ≠ 0 := by rwa [h.dyadic_eq]
      rw [widen_dyadic h hm hlt, ofDyadic_shift hmantissa, ofDyadic_dyadic hlt]
  · have heq : x.magnitude = Precision.single.infinityMagnitude := by omega
    rw [widen, convert_of_eq heq, Double.narrow, convert_of_eq rfl]
    exact ext_iff'.mpr ⟨rfl, heq.symm⟩

/-- What lies beyond the singles is no finite number. -/
theorem withinSingle_of_isFinite (hx : (widen x).isFinite) : (widen x).withinSingle := by
  replace hx : (widen x).magnitude < Precision.double.infinityMagnitude := of_decide_eq_true hx
  rcases Nat.lt_trichotomy x.magnitude Precision.single.infinityMagnitude with hlt | heq | hgt
  · exact withinSingle_widen hlt
  · rw [widen, convert_of_eq heq] at hx
    exact absurd hx (Nat.lt_irrefl _)
  · have hwide := isNaN_iff.mp (isNaN_convertNaN (q := .double) x)
    rw [widen, convert_of_gt hgt] at hx
    exact absurd hx (Nat.lt_asymm hwide)

theorem toFloat_widen (x : Single) :
    Number.toFloat? .single (.float (widen x)) = some (widen x).narrow := by
  refine if_neg fun h => ?_
  obtain ⟨hfinite, hbeyond⟩ := Bool.and_eq_true_iff.mp h
  rw [withinSingle_of_isFinite hfinite] at hbeyond
  cases hbeyond

theorem isNaN_widen (hx : x.isNaN) : (widen x).isNaN := by
  rw [widen, convert_of_gt (isNaN_iff.mp hx)]
  exact isNaN_convertNaN x

theorem isNaN_narrow_widen (hx : x.isNaN) : (widen x).narrow.isNaN := by
  have hwide := isNaN_widen hx
  rw [Double.narrow, convert_of_gt (isNaN_iff.mp hwide)]
  exact isNaN_convertNaN _

/-- A NaN keeps its payload, but for the quiet bit, which is set. -/
theorem magnitude_narrow_widen (hx : x.isNaN) :
    (widen x).narrow.magnitude =
      Precision.single.infinityMagnitude + quieted .single (x.magnitude % 2 ^ 23) := by
  have hwide := isNaN_widen hx
  rw [Double.narrow, convert_of_gt (isNaN_iff.mp hwide), widen, convert_of_gt (isNaN_iff.mp hx),
    magnitude_convertNaN, magnitude_convertNaN]
  have hlt : x.magnitude % 2 ^ 23 < 2 ^ 23 := Nat.mod_lt _ (by decide)
  simp only [quieted, Precision.infinityMagnitude, Precision.quietBit, Precision.fractionBits,
    Precision.exponentBits, Nat.testBit_eq_decide_div_mod_eq, decide_eq_true_eq]
  generalize x.magnitude % 2 ^ 23 = payload at *
  simp only [Nat.reducePow, Nat.reduceSub, Nat.reduceMul] at *
  rw [show payload * 4503599627370496 / 8388608 = payload * 536870912 by omega]
  split <;> split <;> split <;> omega

/-- What has been there and back once stays as it is. -/
theorem narrow_widen_narrow_widen (x : Single) :
    (widen (widen x).narrow).narrow = (widen x).narrow := by
  by_cases hx : x.isNaN
  · refine ext_iff'.mpr ⟨?_, ?_⟩
    · simp only [widen, Double.narrow, negative_convert]
    · have hlt : x.magnitude % 2 ^ 23 < 2 ^ 23 := Nat.mod_lt _ (by decide)
      rw [magnitude_narrow_widen (isNaN_narrow_widen hx), magnitude_narrow_widen hx]
      simp only [quieted, Precision.infinityMagnitude, Precision.quietBit, Precision.fractionBits,
        Precision.exponentBits, Nat.testBit_eq_decide_div_mod_eq, decide_eq_true_eq]
      generalize x.magnitude % 2 ^ 23 = payload at *
      split <;> split <;> omega
  · rw [narrow_widen hx, narrow_widen hx]

/-- All that a single may lose on the way there and back is the payload of a NaN. -/
theorem same_narrow_widen (x : Single) :
    (widen x).narrow = x ∨ (widen x).narrow.isNaN ∧ x.isNaN := by
  by_cases hx : x.isNaN
  · exact .inr ⟨isNaN_narrow_widen hx, hx⟩
  · exact .inl (narrow_widen hx)

end Single

end MsgPack
