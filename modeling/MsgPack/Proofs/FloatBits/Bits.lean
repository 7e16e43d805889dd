import MsgPack.FloatBits.Rounding

/-!
Patterns of floats as numbers, the sign under conversions, and what equality of
numbers leaves open: nothing but the sign of a zero.
-/

namespace MsgPack.FloatBits

variable {p q : Precision}

theorem ext_iff' {x y : FloatBits p} :
    x = y ↔ x.negative = y.negative ∧ x.magnitude = y.magnitude := by
  cases x
  cases y
  simp

theorem two_pow_width (p : Precision) :
    2 ^ p.magnitudeBits + 2 ^ p.magnitudeBits = 256 ^ p.bytes := by
  cases p <;> decide

theorem toNat_lt (x : FloatBits p) : x.toNat < 256 ^ p.bytes := by
  have hlt := x.lt
  have hwidth := two_pow_width p
  rw [toNat]
  split <;> omega

/-- A pattern is its number. -/
theorem ofNat_toNat (x : FloatBits p) : ofNat x.toNat = x := by
  obtain ⟨negative, magnitude, hlt⟩ := x
  refine ext_iff'.mpr ⟨?_, ?_⟩
  · cases negative with
    | false =>
        simp only [ofNat, toNat]
        rw [if_neg Bool.false_ne_true, Nat.zero_add, Nat.testBit_lt_two_pow hlt]
    | true =>
        simp only [ofNat, toNat]
        rw [if_pos trivial, Nat.testBit_two_pow_add_eq, Nat.testBit_lt_two_pow hlt, Bool.not_false]
  · cases negative with
    | false => simp [ofNat, toNat, Nat.mod_eq_of_lt hlt]
    | true => simp [ofNat, toNat, Nat.mod_eq_of_lt hlt]

theorem negative_ofMagnitude (negative : Bool) (magnitude : Nat) :
    (ofMagnitude negative magnitude : FloatBits p).negative = negative := by
  rw [ofMagnitude]
  split <;> rfl

theorem negative_ofDyadic (d : Dyadic) : (ofDyadic d : FloatBits p).negative = d.negative := by
  rw [ofDyadic]
  split <;> exact negative_ofMagnitude ..

theorem negative_dyadic (x : FloatBits p) : x.dyadic.negative = x.negative := by
  unfold dyadic
  dsimp only
  split <;> rfl

theorem negative_convertNaN (x : FloatBits p) :
    (x.convertNaN : FloatBits q).negative = x.negative := by
  unfold convertNaN
  dsimp only
  split <;> split <;> rfl

/-- Conversions keep the sign, that of zeros included. -/
theorem negative_convert (x : FloatBits p) :
    (x.convert : FloatBits q).negative = x.negative := by
  rw [convert]
  split
  · rw [negative_ofDyadic, negative_dyadic]
  · split
    · rfl
    · exact negative_convertNaN x

/-! ### Equality of numbers -/

theorem beq_iff {x y : FloatBits p} :
    (x == y) = true ↔ (¬ x.isNaN ∧ ¬ y.isNaN) ∧
      x.magnitude = y.magnitude ∧ (x.negative = y.negative ∨ x.magnitude = 0) := by
  simp [BEq.beq]

theorem beq_self {x : FloatBits p} (h : ¬ x.isNaN) : (x == x) = true :=
  beq_iff.mpr ⟨⟨h, h⟩, rfl, .inl rfl⟩

theorem not_isNaN_of_isFinite {x : FloatBits p} (h : x.isFinite) : ¬ x.isNaN := fun hnan =>
  Nat.lt_asymm (of_decide_eq_true h) (of_decide_eq_true hnan)

theorem eq_of_beq {x y : FloatBits p} (h : (x == y) = true)
    (hsign : x.negative = y.negative) : x = y :=
  ext_iff'.mpr ⟨hsign, (beq_iff.mp h).2.1⟩

end MsgPack.FloatBits
