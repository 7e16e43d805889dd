import MsgPack.Proofs.Wire.Shortest

/-!
What a number costs under each policy. The lossless policy never costs more than
the exact one: an integer goes into a type that is no wider than its own, and a
double into a single if that keeps it. The aggressive policy writes an integer
for a float wherever the float is one. That is no dearer than the float as long
as 32 bits hold the integer or no single holds the float. Beyond 32 bits an
integer takes nine bytes, which is four more than the single.
-/

namespace MsgPack

namespace Put

/-- Where there is room the step writes `n` bytes, and it tells so. -/
def Costs (put : Put Nat) (n : Nat) : Prop := ∃ bs, Writes put bs ∧ bs.length = n

theorem Costs.ofRun {put : Put Nat} {P : Bytes → Prop} (h : ∃ bs, put = runAll [bs] ∧ P bs) :
    Costs put (bytes put).length := by
  obtain ⟨bs, heq, -⟩ := h
  have hwrites := Writes.single heq
  exact ⟨bs, hwrites, by rw [hwrites.bytes_eq]⟩

/-! ### Integers -/

/-- Outside 32 bits only the widest types are left. -/
theorem length_shortestInt_wide {i : WireInt} (h : i.val < -0x80000000 ∨ 0xffffffff < i.val) :
    (bytes (shortestInt i)).length = 9 := by
  have hnarrowest : IntType.narrowest i.val = .i64 ∨ IntType.narrowest i.val = .u64 := by
    rcases h with h | h
    · left
      rw [IntType.narrowest, if_neg (by omega), if_neg (by omega), if_neg (by omega),
        if_neg (by omega)]
    · right
      rw [IntType.narrowest, if_pos (by omega), if_neg (by omega), if_neg (by omega),
        if_neg (by omega)]
  unfold shortestInt
  dsimp only
  rw [length_int]
  rcases hnarrowest with ht | ht <;> rw [ht] <;> rfl

theorem length_shortestInt_of_32 {i : WireInt} (h : ¬ (i.val < -0x80000000 ∨ 0xffffffff < i.val)) :
    (bytes (shortestInt i)).length ≤ 5 := by
  by_cases hsign : 0 ≤ i.val
  · exact length_shortestInt_le (t := .u32) ⟨hsign, by simp only [IntType.max]; omega⟩
  · exact length_shortestInt_le (t := .i32)
      ⟨by simp only [IntType.min]; omega, by simp only [IntType.max]; omega⟩

theorem length_shortestInt_le_nine (i : WireInt) : (bytes (shortestInt i)).length ≤ 9 := by
  by_cases h : i.val < -0x80000000 ∨ 0xffffffff < i.val
  · exact Nat.le_of_eq (length_shortestInt_wide h)
  · exact Nat.le_trans (length_shortestInt_of_32 h) (by decide)

/-- An integer that its own type writes as one byte is a fixint of the
narrowest type too. -/
theorem length_shortestInt_le_int (t : IntType) (i : t.Value) :
    (bytes (shortestInt i.toWire)).length ≤ (bytes (int t i)).length := by
  rw [length_int]
  split
  · next hfixint =>
      refine Nat.le_of_eq (length_shortestInt_fixint (i := i.toWire) ?_)
      have hi := i.property
      cases t <;> simp only [fixint?] at hfixint
      case u8 =>
        split at hfixint
        · next hle =>
            have hnonneg : 0 ≤ i.val := hi.1
            show -0x20 ≤ i.val ∧ i.val < 0x80
            omega
        · cases hfixint
      case i8 =>
        split at hfixint
        · next hrange =>
            show -0x20 ≤ i.val ∧ i.val < 0x80
            omega
        · cases hfixint
      all_goals cases hfixint
  · exact length_shortestInt_le (i := i.toWire) i.property

/-! ### Floats -/

theorem length_float (p : Precision) (x : FloatBits p) :
    (bytes (float p x)).length = p.bytes + 1 :=
  length_scalar ..

/-- A double is written as a single only if it is one, the sign of a zero
included. -/
theorem length_shortestDouble_of_not {x : Double} (h : ¬ ∃ y : Single, Single.widen y = x) :
    (bytes (shortestDouble x)).length = 9 := by
  rw [shortestDouble]
  split
  · next hsame =>
      refine absurd ⟨x.narrow, FloatBits.eq_of_beq (Bool.and_eq_true_iff.mp hsame).2 ?_⟩ h
      exact (FloatBits.negative_convert _).trans (FloatBits.negative_convert x)
  · exact length_scalar ..

end Put

theorem FloatBits.isFinite_of_toInt? {p : Precision} {x : FloatBits p} {i : Int}
    (h : x.toInt? = some i) : x.isFinite := by
  rw [toInt?] at h
  split at h
  · assumption
  · cases h

theorem Double.isFinite_of_toWireInt? {x : Double} {i : WireInt} (h : x.toWireInt? = some i) :
    x.isFinite := by
  obtain ⟨j, hj, -⟩ := Option.bind_eq_some_iff.mp h
  exact FloatBits.isFinite_of_toInt? hj

/-- Four bytes hold the float. -/
def FloatBits.HasSingle : {p : Precision} → FloatBits p → Prop
  | .single, _ => True
  | .double, x => ∃ y : Single, Single.widen y = x

namespace EncodePolicy

open Put (Costs bytes)

variable {p : Precision} {x : FloatBits p}

/-- The float is an integer of 64 bits, but not of 32, and a single holds it. -/
def Outgrows (x : FloatBits p) : Prop :=
  ∃ i, integral? p x = some i ∧ (i.val < -0x80000000 ∨ 0xffffffff < i.val) ∧ x.HasSingle

theorem length_losslessFloat_le (p : Precision) (x : FloatBits p) :
    (bytes (losslessFloat p x)).length ≤ (bytes (Put.float p x)).length := by
  cases p with
  | single => exact Nat.le_refl _
  | double =>
      rw [Put.length_float]
      exact Put.length_shortestDouble_le x

/-- What the lossless policy gives for a float that is an integer. -/
theorem length_losslessFloat {i : WireInt} (hi : integral? p x = some i) :
    x.HasSingle ∧ (bytes (losslessFloat p x)).length = 5 ∨
      ¬ x.HasSingle ∧ (bytes (losslessFloat p x)).length = 9 := by
  cases p with
  | single => exact .inl ⟨trivial, Put.length_float .single x⟩
  | double =>
      by_cases h : ∃ y : Single, Single.widen y = x
      · obtain ⟨y, rfl⟩ := h
        exact .inl ⟨⟨y, rfl⟩, Put.length_shortestDouble_widen (Double.isFinite_of_toWireInt? hi)⟩
      · exact .inr ⟨h, Put.length_shortestDouble_of_not h⟩

theorem float_of_integral {i : WireInt} (hi : integral? p x = some i) :
    aggressive.float p x = Put.shortestInt i := by
  unfold EncodePolicy.float
  dsimp only
  rw [hi]

theorem float_of_not_integral (h : integral? p x = none) :
    aggressive.float p x = losslessFloat p x := by
  unfold EncodePolicy.float
  dsimp only
  rw [h]

theorem length_aggressive_float (p : Precision) (x : FloatBits p) :
    ¬ Outgrows x ∧
        (bytes (aggressive.float p x)).length ≤ (bytes (lossless.float p x)).length ∨
      Outgrows x ∧ (bytes (aggressive.float p x)).length = 9 ∧
        (bytes (lossless.float p x)).length = 5 := by
  show ¬ Outgrows x ∧ _ ≤ (bytes (losslessFloat p x)).length ∨ Outgrows x ∧ _ ∧
    (bytes (losslessFloat p x)).length = 5
  cases hi : integral? p x with
  | none =>
      refine .inl ⟨fun h => ?_, Nat.le_of_eq (by rw [float_of_not_integral hi])⟩
      obtain ⟨i, hsome, -⟩ := h
      rw [hi] at hsome
      cases hsome
  | some i =>
      rw [float_of_integral hi]
      by_cases hwide : i.val < -0x80000000 ∨ 0xffffffff < i.val
      · rcases length_losslessFloat hi with ⟨hsingle, hlength⟩ | ⟨hsingle, hlength⟩
        · exact .inr ⟨⟨i, hi, hwide, hsingle⟩, Put.length_shortestInt_wide hwide, hlength⟩
        · refine .inl ⟨fun h => hsingle ?_, ?_⟩
          · obtain ⟨-, -, -, h⟩ := h
            exact h
          · rw [hlength]
            exact Put.length_shortestInt_le_nine i
      · refine .inl ⟨fun h => hwide ?_, ?_⟩
        · obtain ⟨j, hj, h, -⟩ := h
          rw [hi] at hj
          cases hj
          exact h
        · refine Nat.le_trans (Put.length_shortestInt_of_32 hwide) ?_
          rcases length_losslessFloat hi with ⟨-, hlength⟩ | ⟨-, hlength⟩
          · exact Nat.le_of_eq hlength.symm
          · rw [hlength]
            decide

theorem costs_int (policy : EncodePolicy) (t : IntType) (i : t.Value) :
    Costs (policy.int t i) (bytes (policy.int t i)).length := .ofRun (policy.int_eq t i)

theorem costs_float (policy : EncodePolicy) (p : Precision) (x : FloatBits p) :
    Costs (policy.float p x) (bytes (policy.float p x)).length := .ofRun (policy.float_eq p x)

/-- Every number can be written under every policy. Neither of the policies that
minimize makes an integer longer, and the lossless one makes no float longer.
The aggressive one makes a float no longer than the lossless one does, unless
the float is an integer beyond 32 bits that a single holds; such a float costs
nine bytes for five. -/
theorem cost_le :
    (∀ (t : IntType) (i : t.Value), ∃ a l e : Nat, Costs (aggressive.int t i) a ∧
      Costs (lossless.int t i) l ∧ Costs (exact.int t i) e ∧ a ≤ l ∧ l ≤ e) ∧
    ∀ (p : Precision) (x : FloatBits p), ∃ a l e : Nat, Costs (aggressive.float p x) a ∧
      Costs (lossless.float p x) l ∧ Costs (exact.float p x) e ∧ l ≤ e ∧
      (¬ Outgrows x ∧ a ≤ l ∨ Outgrows x ∧ a = 9 ∧ l = 5) := by
  refine ⟨fun t i => ?_, fun p x => ?_⟩
  · exact ⟨_, _, _, costs_int _ t i, costs_int _ t i, costs_int _ t i, Nat.le_refl _,
      Put.length_shortestInt_le_int t i⟩
  · exact ⟨_, _, _, costs_float _ p x, costs_float _ p x, costs_float _ p x,
      length_losslessFloat_le p x, length_aggressive_float p x⟩

/-- The double 4294967296: `cf` and eight bytes as an integer, `ca` and four as
a single. -/
theorem cost_of_two_pow_32 :
    Costs (aggressive.float .double (.ofNat 0x41f0000000000000)) 9 ∧
      Costs (lossless.float .double (.ofNat 0x41f0000000000000)) 5 :=
  ⟨costs_float .aggressive .double _, costs_float .lossless .double _⟩

end EncodePolicy

end MsgPack
