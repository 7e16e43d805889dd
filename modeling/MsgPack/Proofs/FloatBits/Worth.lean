import Mathlib.Algebra.Order.Field.Power
import Mathlib.Algebra.Order.Field.Rat
import Mathlib.Tactic.NormNum
import Mathlib.Tactic.Positivity
import MsgPack.Proofs.FloatBits.Exact

/-!
What floats are worth, in rational numbers. Rounding sees nothing but the worth
of a number, so that it is exact wherever the target has a float of that worth.
A float is an integer if its worth is one, and the magnitudes of finite floats
are in the order of their worths, which puts a bound to those of either width.
-/

namespace MsgPack

namespace Dyadic

variable {d e : Dyadic}

/-- A magnitude under the sign of `d`. -/
def signed (d : Dyadic) (n : Nat) : Int := if d.negative then -n else n

/-- The number `± mantissa * 2 ^ exponent`. -/
def toRat (d : Dyadic) : ℚ := d.signed d.mantissa * 2 ^ d.exponent

theorem two_zpow_ne_zero (k : Int) : (2 : ℚ) ^ k ≠ 0 := zpow_ne_zero k two_ne_zero

theorem natAbs_signed (d : Dyadic) (n : Nat) : (d.signed n).natAbs = n := by
  rw [signed]
  split <;> omega

theorem signed_mul (d : Dyadic) (m n : Nat) : d.signed (m * n) = d.signed m * n := by
  rw [signed, signed]
  split
  · rw [Int.natCast_mul, Int.neg_mul]
  · rw [Int.natCast_mul]

theorem negative_eq (hd : d.mantissa ≠ 0) : d.negative = decide (d.signed d.mantissa < 0) := by
  rw [signed]
  cases d.negative with
  | false =>
      rw [if_neg Bool.false_ne_true]
      exact (decide_eq_false (by omega)).symm
  | true =>
      rw [if_pos rfl]
      exact (decide_eq_true (by omega)).symm

theorem eq_of_signed_eq (hd : d.mantissa ≠ 0) (hsigned : d.signed d.mantissa = e.signed e.mantissa)
    (hexponent : d.exponent = e.exponent) : d = e := by
  have hmantissa : d.mantissa = e.mantissa := by
    rw [← natAbs_signed d d.mantissa, hsigned, natAbs_signed]
  have hnegative : d.negative = e.negative := by
    rw [negative_eq hd, negative_eq (hmantissa ▸ hd), hsigned]
  obtain ⟨negative, mantissa, exponent⟩ := d
  obtain rfl : negative = e.negative := hnegative
  obtain rfl : mantissa = e.mantissa := hmantissa
  obtain rfl : exponent = e.exponent := hexponent
  rfl

/-- More bits in the mantissa do not change the number. -/
theorem toRat_shift (d : Dyadic) (k : Nat) : (d.shift k).toRat = d.toRat := by
  show ((d.signed (d.mantissa * 2 ^ k) : Int) : ℚ) * 2 ^ (d.exponent - k) = d.toRat
  rw [signed_mul, toRat]
  push_cast
  rw [mul_assoc, ← zpow_natCast, ← zpow_add₀ two_ne_zero]
  congr 2
  omega

theorem toRat_eq_zero_iff : d.toRat = 0 ↔ d.mantissa = 0 := by
  rw [toRat, mul_eq_zero, or_iff_left (two_zpow_ne_zero _), Int.cast_eq_zero, ← Int.natAbs_eq_zero,
    natAbs_signed]

theorem abs_toRat (d : Dyadic) : |d.toRat| = d.mantissa * 2 ^ d.exponent := by
  have hpos : (0 : ℚ) < 2 ^ d.exponent := by positivity
  rw [toRat, abs_mul, abs_of_pos hpos, ← Int.cast_abs, Int.abs_eq_natAbs, natAbs_signed]
  rfl

theorem toRat_ofInt (i : Int) : (ofInt i).toRat = i := by
  have hsigned : (ofInt i).signed i.natAbs = i := by
    unfold signed ofInt
    dsimp only
    split
    · next h =>
        replace h : i < 0 := of_decide_eq_true h
        omega
    · next h =>
        replace h : ¬ i < 0 := fun hlt => h (decide_eq_true hlt)
        omega
  show ((ofInt i).signed i.natAbs : ℚ) * 2 ^ (0 : Int) = i
  rw [hsigned, zpow_zero, mul_one]

/-- Of two ways to write a number, the one with the lower exponent has more bits
in its mantissa, and there is no other difference. -/
theorem eq_shift_of_toRat_eq (hd : d.mantissa ≠ 0) (h : d.toRat = e.toRat)
    (hle : d.exponent ≤ e.exponent) : d = e.shift (e.exponent - d.exponent).toNat := by
  have hexponent : d.exponent = (e.shift (e.exponent - d.exponent).toNat).exponent := by
    rw [exponent_shift]
    omega
  refine eq_of_signed_eq hd ?_ hexponent
  rw [← toRat_shift e (e.exponent - d.exponent).toNat, toRat, toRat, ← hexponent] at h
  exact Int.cast_injective (mul_right_cancel₀ (two_zpow_ne_zero _) h)

theorem toRat_of_nonneg {k : Nat} (h : d.exponent = k) :
    d.toRat = (d.signed (d.mantissa * 2 ^ k) : Int) := by
  rw [toRat, h, zpow_natCast, signed_mul]
  push_cast
  rfl

theorem toRat_mul_of_neg {k : Nat} (h : d.exponent = -k) :
    d.toRat * (2 ^ k : Nat) = d.signed d.mantissa := by
  rw [toRat, h, zpow_neg, zpow_natCast]
  push_cast
  rw [mul_assoc]
  rw [inv_mul_cancel₀ (pow_ne_zero k two_ne_zero), mul_one]

/-- A dyadic number is an integer if what it is worth is one. -/
theorem toInt?_eq_some_iff {i : Int} : d.toInt? = some i ↔ d.toRat = i := by
  rcases Int.lt_or_le d.exponent 0 with hlt | hle
  · obtain ⟨k, hk⟩ := Int.eq_ofNat_of_zero_le (show 0 ≤ -d.exponent by omega)
    have hpos := Nat.two_pow_pos k
    have hint : d.toInt? = if d.mantissa % 2 ^ k = 0 then some (d.signed (d.mantissa / 2 ^ k))
        else none := by
      unfold toInt?
      rw [if_neg (Int.not_le.mpr hlt), hk, Int.toNat_natCast]
      rfl
    have hworth : d.toRat = i ↔ d.signed d.mantissa = i * (2 ^ k : Nat) := by
      rw [← mul_left_inj' (Nat.cast_ne_zero.mpr (Nat.ne_of_gt hpos)),
        toRat_mul_of_neg (k := k) (by omega), ← Int.cast_natCast, ← Int.cast_mul, Int.cast_inj]
    rw [hint, hworth]
    split
    · next hmod =>
        have hmantissa : d.signed d.mantissa = d.signed (d.mantissa / 2 ^ k) * (2 ^ k : Nat) := by
          rw [← signed_mul, Nat.div_mul_cancel (Nat.dvd_of_mod_eq_zero hmod)]
        rw [hmantissa, Int.mul_eq_mul_right_iff (by omega), Option.some_inj]
    · next hmod =>
        refine iff_of_false (Option.some_ne_none _).symm fun h => hmod ?_
        rw [← natAbs_signed d d.mantissa, h, Int.natAbs_mul, Int.natAbs_natCast]
        exact Nat.mul_mod_left _ _
  · obtain ⟨k, hk⟩ := Int.eq_ofNat_of_zero_le hle
    have hint : d.toInt? = some (d.signed (d.mantissa * 2 ^ k)) := by
      unfold toInt?
      rw [if_pos hle, hk, Int.toNat_natCast]
      rfl
    rw [hint, toRat_of_nonneg hk, Option.some_inj, Int.cast_inj]

end Dyadic

namespace FloatBits

variable {p q : Precision} {x y : FloatBits p} {r : ℚ}

/-- What a float is worth, if it is a finite one. -/
def toRat? (x : FloatBits p) : Option ℚ := if x.isFinite then some x.dyadic.toRat else none

theorem toRat?_eq_some_iff : x.toRat? = some r ↔ x.isFinite ∧ x.dyadic.toRat = r := by
  rw [toRat?]
  split
  · next h => rw [Option.some_inj, and_iff_right h]
  · next h => exact iff_of_false (Option.some_ne_none _).symm fun hr => h hr.1

theorem toInt?_eq_some_iff {i : Int} : x.toInt? = some i ↔ x.toRat? = some (i : ℚ) := by
  rw [toInt?, toRat?]
  split
  · rw [Dyadic.toInt?_eq_some_iff, Option.some_inj]
  · exact iff_of_false (Option.some_ne_none _).symm (Option.some_ne_none _).symm

theorem toRat?_of_lt (hx : x.magnitude < p.infinityMagnitude) :
    x.toRat? = some x.dyadic.toRat := if_pos (decide_eq_true hx)

theorem lt_of_toRat? (hr : x.toRat? = some r) : x.magnitude < p.infinityMagnitude :=
  of_decide_eq_true (toRat?_eq_some_iff.mp hr).1

theorem toRat?_of_le (hx : p.infinityMagnitude ≤ x.magnitude) : x.toRat? = none :=
  if_neg fun h => Nat.not_lt.mpr hx (of_decide_eq_true h)

theorem dyadic_zero (hx : x.magnitude = 0) : x.dyadic.mantissa = 0 := by
  have hsplits : x.Splits 0 0 := ⟨by simpa using hx, Nat.two_pow_pos _, .inl rfl⟩
  rw [hsplits.dyadic_eq]

theorem magnitude_eq_zero (hx : x.dyadic.mantissa = 0) : x.magnitude = 0 := by
  obtain ⟨k, m, h⟩ := x.exists_splits
  obtain rfl : m = 0 := by rwa [h.dyadic_eq] at hx
  obtain rfl : k = 0 := h.normal.resolve_right (Nat.not_le.mpr (Nat.two_pow_pos _))
  simp [h.magnitude_eq]

/-! ### Rounding -/

/-- Rounding sees what a number is worth, and no more. -/
theorem ofDyadic_congr {d e : Dyadic} (hd : d.mantissa ≠ 0) (h : d.toRat = e.toRat) :
    (ofDyadic d : FloatBits p) = ofDyadic e := by
  have he : e.mantissa ≠ 0 := by
    rwa [ne_eq, ← Dyadic.toRat_eq_zero_iff, ← h, Dyadic.toRat_eq_zero_iff]
  rcases Int.le_total d.exponent e.exponent with hle | hle
  · rw [Dyadic.eq_shift_of_toRat_eq hd h hle, ofDyadic_shift he]
  · rw [Dyadic.eq_shift_of_toRat_eq he h.symm hle, ofDyadic_shift hd]

end FloatBits

/-- Some float of the width is worth `r`. -/
def Precision.Holds (p : Precision) (r : ℚ) : Prop := ∃ x : FloatBits p, x.toRat? = some r

namespace FloatBits

variable {p q : Precision} {x y : FloatBits p} {r : ℚ}

theorem toRat?_ofDyadic_zero {d : Dyadic} (hd : d.mantissa = 0) :
    (ofDyadic d : FloatBits p).toRat? = some d.toRat := by
  have hpos : 0 < p.infinityMagnitude := by cases p <;> decide
  have hzero : (ofDyadic d : FloatBits p).magnitude = 0 := by
    rw [ofDyadic, if_pos hd, ofMagnitude_eq hpos]
  rw [toRat?_of_lt (hzero ▸ hpos), Dyadic.toRat_eq_zero_iff.mpr hd,
    Dyadic.toRat_eq_zero_iff.mpr (dyadic_zero hzero)]

/-- Rounding is exact where it can be. -/
theorem toRat?_ofDyadic_iff (d : Dyadic) :
    (ofDyadic d : FloatBits p).toRat? = some d.toRat ↔ p.Holds d.toRat := by
  refine ⟨fun h => ⟨_, h⟩, ?_⟩
  rintro ⟨x, hx⟩
  by_cases hd : d.mantissa = 0
  · exact toRat?_ofDyadic_zero hd
  · have hworth := (toRat?_eq_some_iff.mp hx).2
    rw [ofDyadic_congr hd hworth.symm, ofDyadic_dyadic (lt_of_toRat? hx), hx]

theorem toRat?_convert_iff (hr : x.toRat? = some r) :
    (x.convert : FloatBits q).toRat? = some r ↔ q.Holds r := by
  obtain ⟨-, rfl⟩ := toRat?_eq_some_iff.mp hr
  rw [convert_of_lt (lt_of_toRat? hr), toRat?_ofDyadic_iff]

theorem toRat?_ofInt_iff (i : Int) : (ofInt i : FloatBits p).toRat? = some (i : ℚ) ↔ p.Holds i := by
  have h := toRat?_ofDyadic_iff (p := p) (.ofInt i)
  rwa [Dyadic.toRat_ofInt] at h

/-- Floats of one worth are equal as numbers. -/
theorem beq_of_toRat? (hx : x.toRat? = some r) (hy : y.toRat? = some r) : (x == y) = true := by
  have hxlt := lt_of_toRat? hx
  have hylt := lt_of_toRat? hy
  have hworth : x.dyadic.toRat = y.dyadic.toRat :=
    (toRat?_eq_some_iff.mp hx).2.trans (toRat?_eq_some_iff.mp hy).2.symm
  have hmagnitude : x.magnitude = y.magnitude ∧ (x.negative = y.negative ∨ x.magnitude = 0) := by
    by_cases hm : x.dyadic.mantissa = 0
    · have hm' : y.dyadic.mantissa = 0 := by
        rwa [← Dyadic.toRat_eq_zero_iff, ← hworth, Dyadic.toRat_eq_zero_iff]
      exact ⟨by rw [magnitude_eq_zero hm, magnitude_eq_zero hm'], .inr (magnitude_eq_zero hm)⟩
    · obtain rfl : x = y := by
        rw [← ofDyadic_dyadic hxlt, ofDyadic_congr hm hworth, ofDyadic_dyadic hylt]
      exact ⟨rfl, .inl rfl⟩
  exact beq_iff.mpr ⟨⟨not_isNaN_of_isFinite (decide_eq_true hxlt),
    not_isNaN_of_isFinite (decide_eq_true hylt)⟩, hmagnitude⟩

/-! ### The order of magnitudes -/

theorem mantissa_mul_lt {k l m n : Nat} (hx : x.Splits k m) (hy : y.Splits l n)
    (h : x.magnitude < y.magnitude) : m * 2 ^ k < n * 2 ^ l := by
  have hm := hx.lt
  have hn := hy.lt
  rw [Nat.pow_succ] at hm hn
  rw [hx.magnitude_eq, hy.magnitude_eq] at h
  rcases Nat.lt_trichotomy k l with hkl | rfl | hlk
  · have hnormal : 2 ^ p.fractionBits ≤ n := hy.normal.resolve_left (by omega)
    calc m * 2 ^ k < 2 ^ (p.fractionBits + 1) * 2 ^ k :=
          Nat.mul_lt_mul_of_pos_right hx.lt (Nat.two_pow_pos k)
      _ = 2 ^ p.fractionBits * 2 ^ (k + 1) := by
          rw [← Nat.pow_add, ← Nat.pow_add]
          congr 1
          omega
      _ ≤ n * 2 ^ l := Nat.mul_le_mul hnormal (Nat.pow_le_pow_right (by decide) hkl)
  · exact Nat.mul_lt_mul_of_pos_right (by omega) (Nat.two_pow_pos k)
  · -- a mantissa in a higher binade fills the significand
    have hnormal : 2 ^ p.fractionBits ≤ m := hx.normal.resolve_left (by omega)
    obtain ⟨j, rfl⟩ := Nat.exists_eq_add_of_lt hlk
    have hexpand : (l + j + 1) * 2 ^ p.fractionBits =
        l * 2 ^ p.fractionBits + j * 2 ^ p.fractionBits + 2 ^ p.fractionBits := by
      rw [Nat.add_mul, Nat.add_mul, Nat.one_mul]
    omega

theorem Splits.abs_eq {k m : Nat} (h : x.Splits k m) :
    |x.dyadic.toRat| = (m * 2 ^ k : Nat) * 2 ^ p.minExponent := by
  rw [Dyadic.abs_toRat, h.dyadic_eq]
  dsimp only
  rw [zpow_add₀ two_ne_zero, zpow_natCast, mul_comm (2 ^ p.minExponent), ← mul_assoc]
  push_cast
  rfl

theorem abs_lt_of_magnitude_lt (h : x.magnitude < y.magnitude) :
    |x.dyadic.toRat| < |y.dyadic.toRat| := by
  obtain ⟨k, m, hx⟩ := x.exists_splits
  obtain ⟨l, n, hy⟩ := y.exists_splits
  have hpos : (0 : ℚ) < 2 ^ p.minExponent := by positivity
  rw [hx.abs_eq, hy.abs_eq]
  exact mul_lt_mul_of_pos_right (Nat.cast_lt.mpr (mantissa_mul_lt hx hy h)) hpos

/-- Magnitudes are ordered as the numbers they stand for. -/
theorem magnitude_le_iff : x.magnitude ≤ y.magnitude ↔ |x.dyadic.toRat| ≤ |y.dyadic.toRat| := by
  refine ⟨fun h => ?_, fun h => Nat.le_of_not_lt fun hlt => ?_⟩
  · rcases Nat.lt_or_eq_of_le h with hlt | heq
    · exact le_of_lt (abs_lt_of_magnitude_lt hlt)
    · obtain ⟨k, m, hx⟩ := x.exists_splits
      have hy : y.Splits k m := ⟨heq ▸ hx.magnitude_eq, hx.lt, hx.normal⟩
      rw [hx.abs_eq, hy.abs_eq]
  · exact absurd h (not_le.mpr (abs_lt_of_magnitude_lt hlt))

end FloatBits

/-- The greatest number that a width holds: all ones under the greatest exponent. -/
def Precision.greatest : Precision → ℚ
  | single => (2 ^ 24 - 1) * 2 ^ 104
  | double => (2 ^ 53 - 1) * 2 ^ 971

namespace FloatBits

variable {p : Precision} {x : FloatBits p} {r : ℚ}

/-- The pattern before the infinity. -/
def last (p : Precision) : FloatBits p :=
  ⟨false, p.infinityMagnitude - 1, by cases p <;> decide⟩

theorem abs_last (p : Precision) : |(last p).dyadic.toRat| = p.greatest := by
  cases p with
  | single =>
      have hsplits : (last .single).Splits 253 (2 ^ 24 - 1) :=
        ⟨by decide, by decide, .inr (by decide)⟩
      rw [hsplits.dyadic_eq, Dyadic.abs_toRat]
      norm_num [Precision.greatest, Precision.minExponent]
  | double =>
      have hsplits : (last .double).Splits 2045 (2 ^ 53 - 1) :=
        ⟨by decide, by decide, .inr (by decide)⟩
      rw [hsplits.dyadic_eq, Dyadic.abs_toRat]
      norm_num [Precision.greatest, Precision.minExponent]

theorem abs_le_greatest (hr : x.toRat? = some r) : |r| ≤ p.greatest := by
  have hlt := lt_of_toRat? hr
  obtain ⟨-, rfl⟩ := toRat?_eq_some_iff.mp hr
  rw [← abs_last, ← magnitude_le_iff]
  exact Nat.le_sub_one_of_lt hlt

end FloatBits

namespace Single

open FloatBits

variable {x : Single}

/-- Widening keeps the worth. -/
theorem toRat?_widen (x : Single) : (widen x).toRat? = x.toRat? := by
  rcases Nat.lt_trichotomy x.magnitude Precision.single.infinityMagnitude with hlt | heq | hgt
  · rw [toRat?_of_lt hlt, toRat?_of_lt (magnitude_widen_lt hlt), Option.some_inj]
    obtain ⟨k, m, h⟩ := x.exists_splits
    by_cases hm : m = 0
    · subst hm
      obtain ⟨hzero, hwide⟩ := widen_zero h
      rw [Dyadic.toRat_eq_zero_iff.mpr (dyadic_zero hzero),
        Dyadic.toRat_eq_zero_iff.mpr (dyadic_zero hwide)]
    · rw [widen_dyadic h hm hlt, Dyadic.toRat_shift]
  · rw [toRat?_of_le (Nat.le_of_eq heq.symm), widen, convert_of_eq heq]
    exact toRat?_of_le (Nat.le_refl _)
  · rw [toRat?_of_le (Nat.le_of_lt hgt), widen, convert_of_gt hgt]
    exact toRat?_of_le (Nat.le_of_lt (isNaN_iff.mp (isNaN_convertNaN x)))

end Single

/-- What a single holds, a double holds. -/
theorem Precision.holds_double {r : ℚ} (h : single.Holds r) : double.Holds r := by
  obtain ⟨x, hx⟩ := h
  exact ⟨Single.widen x, by rw [Single.toRat?_widen, hx]⟩

/-- The bound that is put to doubles that are to be narrowed is the greatest
single. -/
theorem Double.withinSingle_iff (x : Double) :
    x.withinSingle ↔ |x.dyadic.toRat| ≤ Precision.single.greatest := by
  have hlast : |(⟨false, maxSingleMagnitude, by decide⟩ : Double).dyadic.toRat| =
      Precision.single.greatest := by
    have hdyadic : (⟨false, maxSingleMagnitude, by decide⟩ : Double).dyadic =
        ⟨false, 2 ^ 53 - 2 ^ 29, 75⟩ := rfl
    rw [hdyadic, Dyadic.abs_toRat]
    norm_num [Precision.greatest]
  rw [← hlast, ← FloatBits.magnitude_le_iff]
  exact decide_eq_true_iff

end MsgPack
