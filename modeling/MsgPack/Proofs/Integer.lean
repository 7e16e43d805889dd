import MsgPack.Number
import MsgPack.Proofs.Bytes
import MsgPack.Proofs.Grammar

/-!
The integer types and their bit patterns: every integer of a type comes back
from its two's complement, and the pattern of `width` bytes stands for the
number that the grammar reads in them.
-/

namespace MsgPack.IntType

theorem modulus_eq (t : IntType) : t.modulus = 256 ^ t.bytes := by
  cases t <;> rfl

theorem wrap_cases (t : IntType) (i : Int) :
    i % t.modulus ≤ t.max ∧ (t.wrap i).val = i % t.modulus ∨
      t.max < i % t.modulus ∧ (t.wrap i).val = i % t.modulus - t.modulus := by
  rw [wrap]
  split
  · next h => exact .inl ⟨h, rfl⟩
  · next h => exact .inr ⟨Int.not_le.mp h, rfl⟩

/-- An integer of the type is its own wrapping. -/
theorem wrap_of_contains {t : IntType} {i : Int} (h : t.Contains i) : t.wrap i = ⟨i, h⟩ := by
  apply Subtype.ext
  show (t.wrap i).val = i
  obtain ⟨hle, hv⟩ | ⟨hlt, hv⟩ := t.wrap_cases i <;> rw [hv]
  · cases t <;> simp only [modulus, Contains, min, max] at * <;> omega
  · cases t <;> simp only [modulus, Contains, min, max] at * <;> omega

/-- The widest type of its signedness holds every integer of a type. -/
theorem contains_widest {t : IntType} (i : t.Value) : t.widest.Contains i.val := by
  have hmin : t.widest.min ≤ t.min := by cases t <;> decide
  have hmax : t.max ≤ t.widest.max := by cases t <;> decide
  exact ⟨Int.le_trans hmin i.property.1, Int.le_trans i.property.2 hmax⟩

theorem ofInt?_eq_some_iff {t : IntType} {i : Int} {m : t.Value} :
    t.ofInt? i = some m ↔ i = m.val := by
  rw [ofInt?]
  split
  · rw [Option.some_inj, Subtype.ext_iff]
  · next h => exact iff_of_false (Option.some_ne_none _).symm fun hm => h (hm ▸ m.property)

theorem toBits_lt (t : IntType) (i : t.Value) : t.toBits i < 256 ^ t.bytes := by
  rw [← modulus_eq]
  rw [toBits]
  cases t <;> simp only [modulus] <;> omega

theorem ofBits_toBits (t : IntType) (i : t.Value) : t.ofBits (t.toBits i) = i := by
  have hi := i.property
  apply Subtype.ext
  unfold ofBits toBits
  obtain ⟨hle, hv⟩ | ⟨hlt, hv⟩ := t.wrap_cases (i.val % t.modulus).toNat <;> rw [hv]
  · cases t <;> simp only [modulus, Contains, min, max] at * <;> omega
  · cases t <;> simp only [modulus, Contains, min, max] at * <;> omega

/-- The bits of an unsigned type are the number itself. -/
theorem ofBits_unsigned {t : IntType} (ht : t.isSigned = false) {n : Nat}
    (hn : n < 256 ^ t.bytes) : (t.ofBits n).val = n := by
  rw [← modulus_eq] at hn
  rw [ofBits]
  obtain ⟨hle, hv⟩ | ⟨hlt, hv⟩ := t.wrap_cases n <;> rw [hv]
  · cases t <;> first | contradiction | (simp only [modulus, max] at *; omega)
  · cases t <;> first | contradiction | (simp only [modulus, max] at *; omega)

theorem ofBits_signed {t : IntType} (ht : t.isSigned = true) {n : Nat}
    (hn : n < 256 ^ t.bytes) : (t.ofBits n).val = Grammar.signedValue t.bytes n := by
  rw [← modulus_eq] at hn
  unfold ofBits Grammar.signedValue
  rw [← modulus_eq]
  obtain ⟨hle, hv⟩ | ⟨hlt, hv⟩ := t.wrap_cases n <;> rw [hv]
  · rw [if_pos (by cases t <;> first | contradiction | (simp only [modulus, max] at *; omega))]
    cases t <;> simp only [modulus] at * <;> omega
  · rw [if_neg (by cases t <;> first | contradiction | (simp only [modulus, max] at *; omega))]
    cases t <;> simp only [modulus] at * <;> omega

end MsgPack.IntType

theorem MsgPack.WireInt.ofInt?_eq_some_iff {i : Int} {j : WireInt} :
    ofInt? i = some j ↔ i = j.val := by
  rw [ofInt?]
  split
  · rw [Option.some_inj, Subtype.ext_iff]
  · next h => exact iff_of_false (Option.some_ne_none _).symm fun hj => h (hj ▸ j.property)
