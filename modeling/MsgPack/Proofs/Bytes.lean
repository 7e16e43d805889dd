import MsgPack.Bytes

/-!
Numerals in base 256: what is spelled is what is read, within the bound that
the number of digits sets.
-/

namespace MsgPack

/-- A property of bytes is settled by the 256 of them. They are gone through
digit by digit, which evaluation takes sixteen steps deep and no further. -/
theorem forall_byte {P : UInt8 → Prop} (h : ∀ i < 16, ∀ j < 16, P (UInt8.ofNat (16 * i + j)))
    (b : UInt8) : P b := by
  have hlt := UInt8.toNat_lt b
  have hb := h (b.toNat / 16) (by omega) (b.toNat % 16) (by omega)
  rwa [Nat.div_add_mod, UInt8.ofNat_toNat] at hb

theorem toNat_byte {n : Nat} (h : n < 256) : (UInt8.ofNat n).toNat = n :=
  UInt8.toNat_ofNat_of_lt' h

namespace Bytes

theorem foldl_toNat (bs : Bytes) (n : Nat) :
    bs.foldl (fun n b => 256 * n + b.toNat) n = n * 256 ^ bs.length + toNat bs := by
  induction bs generalizing n with
  | nil => simp [toNat]
  | cons b bs ih =>
      have htail : toNat (b :: bs) = b.toNat * 256 ^ bs.length + toNat bs := by
        rw [toNat, List.foldl_cons, ih]
        simp
      have hmul : 256 * n * 256 ^ bs.length = n * (256 ^ bs.length * 256) := by
        rw [Nat.mul_comm 256 n, Nat.mul_assoc, Nat.mul_comm 256]
      rw [List.foldl_cons, ih, htail, List.length_cons, Nat.pow_succ, Nat.add_mul, hmul]
      omega

@[simp] theorem toNat_nil : toNat [] = 0 := rfl

theorem toNat_cons (b : UInt8) (bs : Bytes) :
    toNat (b :: bs) = b.toNat * 256 ^ bs.length + toNat bs := by
  rw [toNat, List.foldl_cons, foldl_toNat]
  simp

theorem toNat_lt (bs : Bytes) : toNat bs < 256 ^ bs.length := by
  induction bs with
  | nil => simp
  | cons b bs ih =>
      have hb := UInt8.toNat_lt b
      rw [toNat_cons, List.length_cons, Nat.pow_succ, Nat.mul_comm _ 256]
      have hle : b.toNat * 256 ^ bs.length ≤ 255 * 256 ^ bs.length :=
        Nat.mul_le_mul_right _ (by omega)
      omega

theorem toNat_ofNat_mod (k n : Nat) : toNat (ofNat k n) = n % 256 ^ k := by
  induction k with
  | zero => simp [ofNat, Nat.mod_one]
  | succ k ih =>
      rw [ofNat, toNat_cons, ih, length_ofNat]
      have hdigit : (UInt8.ofNat (n / 256 ^ k)).toNat = n / 256 ^ k % 256 := by simp
      rw [hdigit, Nat.pow_succ, Nat.mod_mul, Nat.mul_comm (256 ^ k), Nat.add_comm]

theorem toNat_ofNat {k n : Nat} (h : n < 256 ^ k) : toNat (ofNat k n) = n := by
  rw [toNat_ofNat_mod, Nat.mod_eq_of_lt h]

/-- The first digit and the number that the others spell. -/
theorem toNat_cons_parts (b : UInt8) (bs : Bytes) :
    toNat (b :: bs) / 256 ^ bs.length = b.toNat ∧ toNat (b :: bs) % 256 ^ bs.length = toNat bs := by
  have hlt := toNat_lt bs
  have hpos : 0 < 256 ^ bs.length := Nat.pow_pos (by decide)
  rw [toNat_cons, Nat.mul_comm]
  exact ⟨by rw [Nat.mul_add_div hpos, Nat.div_eq_of_lt hlt, Nat.add_zero],
    by rw [Nat.mul_add_mod, Nat.mod_eq_of_lt hlt]⟩

theorem toNat_inj {bs bs' : Bytes} (hlen : bs.length = bs'.length) (h : toNat bs = toNat bs') :
    bs = bs' := by
  induction bs generalizing bs' with
  | nil => exact (List.eq_nil_of_length_eq_zero hlen.symm).symm
  | cons b bs ih =>
      cases bs' with
      | nil => cases hlen
      | cons b' bs' =>
          have hlen' : bs.length = bs'.length := Nat.succ.inj hlen
          obtain ⟨hfirst, hrest⟩ := toNat_cons_parts b bs
          obtain ⟨hfirst', hrest'⟩ := toNat_cons_parts b' bs'
          rw [h, hlen'] at hfirst hrest
          rw [UInt8.toNat_inj.mp (hfirst.symm.trans hfirst'), ih hlen' (hrest.symm.trans hrest')]

end Bytes

end MsgPack
