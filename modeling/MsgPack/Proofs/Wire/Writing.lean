import MsgPack.Proofs.FloatBits.Bits
import MsgPack.Proofs.Integer
import MsgPack.Proofs.Wire.Reading
import MsgPack.Proofs.Wire.Runs
import MsgPack.Wire.Policy

/-!
The writers of single entities write the language that the grammar has for
them. Each of them is a fixed list of runs, and the runs together are a string
of the language.
-/

namespace MsgPack

open Grammar (Numeral TextHeader BinaryHeader ExtensionHeader ArrayHeader MapHeader)

namespace Put

/-! ### Integers -/

theorem positiveFixint_toByte : ∀ n < 0x80,
    (Marker.positiveFixint (UInt8.ofInt (n : Nat))).toByte = UInt8.ofNat n := by
  decide

theorem negativeFixint_toByte : ∀ n < 0x21, 1 ≤ n →
    (Marker.negativeFixint (UInt8.ofInt (-(n : Nat)))).toByte = UInt8.ofNat (0x100 - n) := by
  decide

theorem fixint_eq_some {t : IntType} {i : t.Value} {m : Marker}
    (h : fixint? t i.val = some m) : Numeral [m.toByte] (.ofInt i) := by
  have hi := i.property
  cases t <;> simp only [fixint?] at h
  case u8 =>
    split at h <;> cases h
    next hle =>
      obtain ⟨n, hn⟩ := Int.eq_ofNat_of_zero_le hi.1
      have hlt : n < 0x80 := by omega
      rw [hn, positiveFixint_toByte n hlt]
      exact .positiveFixint hlt hn
  case i8 =>
    split at h <;> cases h
    next hrange =>
      obtain ⟨n, hn⟩ := Int.eq_ofNat_of_zero_le (show 0 ≤ -i.val by omega)
      have hval : i.val = -(n : Nat) := by omega
      have hlt : n < 0x21 := by omega
      rw [hval, negativeFixint_toByte n hlt (by omega)]
      exact .negativeFixint (by omega) hval
  all_goals cases h

theorem toByte_typecode_mem (t : IntType) :
    (t.typecode.toByte, t.bytes) ∈ if t.isSigned then Grammar.intTags else Grammar.uintTags := by
  cases t <;> decide

/-- An integer in its own encoding. -/
theorem int_eq (t : IntType) (i : t.Value) :
    ∃ bs, Put.int t i = runAll [bs] ∧ Numeral bs (.ofInt i) := by
  rw [Put.int]
  cases h : fixint? t i.val with
  | some m => exact ⟨_, marker_eq m, fixint_eq_some h⟩
  | none =>
      refine ⟨_, scalar_eq .., ?_⟩
      have hmem := toByte_typecode_mem t
      have hlt := t.toBits_lt i
      have hback := congrArg Subtype.val (t.ofBits_toBits i)
      cases hsigned : t.isSigned <;> rw [hsigned] at hmem
      · refine .unsigned hmem (Bytes.length_ofNat ..) ?_
        rw [Bytes.toNat_ofNat hlt, ← IntType.ofBits_unsigned hsigned hlt, hback]
        rfl
      · refine .signed hmem (Bytes.length_ofNat ..) ?_
        rw [Bytes.toNat_ofNat hlt, ← IntType.ofBits_signed hsigned hlt, hback]
        rfl

theorem narrowest_contains (i : WireInt) : (IntType.narrowest i.val).Contains i.val := by
  have hi := i.property
  rw [IntType.narrowest]
  split
  · split
    · simp only [IntType.Contains, IntType.min, IntType.max]; omega
    · split
      · simp only [IntType.Contains, IntType.min, IntType.max]; omega
      · split
        · simp only [IntType.Contains, IntType.min, IntType.max]; omega
        · simp only [IntType.Contains, IntType.min, IntType.max]; omega
  · split
    · simp only [IntType.Contains, IntType.min, IntType.max]; omega
    · split
      · simp only [IntType.Contains, IntType.min, IntType.max]; omega
      · split
        · simp only [IntType.Contains, IntType.min, IntType.max]; omega
        · simp only [IntType.Contains, IntType.min, IntType.max]; omega

theorem shortestInt_eq (i : WireInt) :
    ∃ bs, shortestInt i = runAll [bs] ∧ Numeral bs (.int i) := by
  have hcontains := narrowest_contains i
  unfold shortestInt
  dsimp only
  rw [IntType.wrap_of_contains hcontains]
  exact int_eq (IntType.narrowest i.val) ⟨i.val, hcontains⟩

/-! ### Floats -/

/-- Any digits behind the tag of a float are one. -/
theorem numeral_digits (p : Precision) {digits : Bytes} (h : digits.length = p.bytes) :
    Numeral (p.typecode.toByte :: digits) (.ofFloat p (.ofNat digits.toNat)) := by
  cases p with
  | single => exact .single h
  | double => exact .double h

theorem numeral_float (p : Precision) (x : FloatBits p) :
    Numeral (p.typecode.toByte :: Bytes.ofNat p.bytes x.toNat) (.ofFloat p x) := by
  have h := numeral_digits p (Bytes.length_ofNat p.bytes x.toNat)
  rwa [Bytes.toNat_ofNat x.toNat_lt, FloatBits.ofNat_toNat] at h

/-- A float in its own encoding. -/
theorem float_eq (p : Precision) (x : FloatBits p) :
    ∃ bs, Put.float p x = runAll [bs] ∧ Numeral bs (.ofFloat p x) :=
  ⟨_, scalar_eq .., numeral_float p x⟩

theorem shortestDouble_eq (x : Double) :
    ∃ bs, shortestDouble x = runAll [bs] ∧ Numeral bs (.float x) := by
  rw [shortestDouble]
  split
  · next h =>
      have hsame : Single.widen x.narrow = x := by
        refine FloatBits.eq_of_beq (Bool.and_eq_true_iff.mp h).2 ?_
        exact (FloatBits.negative_convert _).trans (FloatBits.negative_convert x)
      obtain ⟨bs, hbs, hn⟩ := float_eq .single x.narrow
      refine ⟨bs, hbs, ?_⟩
      rwa [Number.ofFloat, hsame] at hn
  · exact float_eq .double x

end Put

namespace EncodePolicy

theorem int_eq (policy : EncodePolicy) (t : IntType) (i : t.Value) :
    ∃ bs, policy.int t i = Put.runAll [bs] ∧ Numeral bs (.ofInt i) := by
  cases policy with
  | exact => exact Put.int_eq t i
  | lossless => exact Put.shortestInt_eq i.toWire
  | aggressive => exact Put.shortestInt_eq i.toWire

theorem losslessFloat_eq (p : Precision) (x : FloatBits p) :
    ∃ bs, losslessFloat p x = Put.runAll [bs] ∧ Numeral bs (.ofFloat p x) := by
  cases p with
  | single => exact Put.float_eq .single x
  | double => exact Put.shortestDouble_eq x

/-- The number that a float is written as. -/
def numberOf (policy : EncodePolicy) (p : Precision) (x : FloatBits p) : Number :=
  match policy with
  | exact | lossless => .ofFloat p x
  | aggressive =>
    match integral? p x with
    | some i => .int i
    | none => .ofFloat p x

theorem float_eq (policy : EncodePolicy) (p : Precision) (x : FloatBits p) :
    ∃ bs, policy.float p x = Put.runAll [bs] ∧ Numeral bs (policy.numberOf p x) := by
  cases policy with
  | exact => exact Put.float_eq p x
  | lossless => exact losslessFloat_eq p x
  | aggressive =>
      unfold EncodePolicy.float numberOf
      cases integral? p x with
      | some i => exact Put.shortestInt_eq i
      | none => exact losslessFloat_eq p x

end EncodePolicy

namespace Put

/-! ### Headers -/

theorem sized_mem {fixed sized : List (UInt8 × Nat)} {code : Typecode} {width n : Nat}
    (hmem : (code.toByte, width) ∈ sized) (hn : n < 256 ^ width) :
    Grammar.Header fixed sized (code.toByte :: Bytes.ofNat width n) n := by
  have hdigits := Bytes.toNat_ofNat hn
  have h : Grammar.Header fixed sized (code.toByte :: Bytes.ofNat width n) _ :=
    .sized hmem (Bytes.length_ofNat width n)
  rwa [hdigits] at h

/-- Lengths that a fixed tag does not hold, in two or four bytes. -/
theorem wideHeader_eq {fixed sized : List (UInt8 × Nat)} {code16 code32 : Typecode}
    (h16 : (code16.toByte, 2) ∈ sized) (h32 : (code32.toByte, 4) ∈ sized) {n : Nat}
    (hn : n ≤ maxLength) :
    ∃ header, (if n ≤ 0xffff then scalar code16 2 n else scalar code32 4 n) = runAll [header] ∧
      Grammar.Header fixed sized header n := by
  unfold maxLength at hn
  split
  · exact ⟨_, scalar_eq .., sized_mem h16 (by omega)⟩
  · exact ⟨_, scalar_eq .., sized_mem h32 (by omega)⟩

theorem sizedHeader_eq {fixed sized : List (UInt8 × Nat)} {code8 code16 code32 : Typecode}
    (h8 : (code8.toByte, 1) ∈ sized) (h16 : (code16.toByte, 2) ∈ sized)
    (h32 : (code32.toByte, 4) ∈ sized) {n : Nat} (hn : n ≤ maxLength) :
    ∃ header, sizedHeader code8 code16 code32 n = runAll [header] ∧
      Grammar.Header fixed sized header n := by
  rw [sizedHeader]
  split
  · exact ⟨_, scalar_eq .., sized_mem h8 (by omega)⟩
  · exact wideHeader_eq h16 h32 hn

theorem textHeader_eq {n : Nat} (hn : n ≤ maxLength) :
    ∃ header, textHeader n = runAll [header] ∧ TextHeader header n := by
  rw [textHeader]
  rw [checkLength_of_le hn, pure_bind]
  split
  · next hlt =>
      have hfixed : ∀ n < 32, ((Marker.fixstr (.ofNat n)).toByte, n) ∈ Grammar.fixstrTags := by
        decide
      exact ⟨_, marker_eq _, .fixed (hfixed n hlt)⟩
  · exact sizedHeader_eq (by decide) (by decide) (by decide) hn

theorem binaryHeader_eq {n : Nat} (hn : n ≤ maxLength) :
    ∃ header, binaryHeader n = runAll [header] ∧ BinaryHeader header n := by
  rw [binaryHeader]
  rw [checkLength_of_le hn, pure_bind]
  exact sizedHeader_eq (by decide) (by decide) (by decide) hn

theorem arrayHeader_eq {n : Nat} (hn : n ≤ maxLength) :
    ∃ header, arrayHeader n = runAll [header] ∧ ArrayHeader header n := by
  rw [arrayHeader]
  rw [checkLength_of_le hn, pure_bind]
  split
  · next hlt =>
      have hfixed : ∀ n < 16,
          ((Marker.fixarray (.ofNat n)).toByte, n) ∈ Grammar.fixarrayTags := by decide
      exact ⟨_, marker_eq _, .fixed (hfixed n hlt)⟩
  · exact wideHeader_eq (by decide) (by decide) hn

theorem mapHeader_eq {n : Nat} (hn : n ≤ maxLength) :
    ∃ header, mapHeader n = runAll [header] ∧ MapHeader header n := by
  rw [mapHeader]
  rw [checkLength_of_le hn, pure_bind]
  split
  · next hlt =>
      have hfixed : ∀ n < 16,
          ((Marker.fixmap (.ofNat n)).toByte, n) ∈ Grammar.fixmapTags := by decide
      exact ⟨_, marker_eq _, .fixed (hfixed n hlt)⟩
  · exact wideHeader_eq (by decide) (by decide) hn

theorem fixext_mem {code : Typecode} {n : Nat} (type : Int8)
    (h : (code.toByte, n) ∈ Grammar.fixextTags) :
    Get.ExtensionPrefix [code.toByte, type.toUInt8] (type, n) :=
  ⟨[code.toByte], .fixed h, rfl⟩

theorem ext_mem {code : Typecode} {width n : Nat} (type : Int8)
    (h : (code.toByte, width) ∈ Grammar.extTags) (hn : n < 256 ^ width) :
    Get.ExtensionPrefix (code.toByte :: (Bytes.ofNat width n ++ [type.toUInt8])) (type, n) :=
  ⟨code.toByte :: Bytes.ofNat width n, sized_mem h hn, by simp⟩

theorem extensionHeaderBytes_mem (type : Int8) {n : Nat} (hn : n ≤ maxLength) :
    Get.ExtensionPrefix (extensionHeaderBytes type n) (type, n) := by
  unfold maxLength at hn
  unfold extensionHeaderBytes
  dsimp only
  split
  · exact fixext_mem type (by decide)
  · exact fixext_mem type (by decide)
  · exact fixext_mem type (by decide)
  · exact fixext_mem type (by decide)
  · exact fixext_mem type (by decide)
  · split
    · exact ext_mem type (by decide) (by omega)
    · split
      · exact ext_mem type (by decide) (by omega)
      · exact ext_mem type (by decide) (by omega)

theorem extensionHeader_eq (type : Int8) {n : Nat} (hn : n ≤ maxLength) :
    ∃ header, extensionHeader type n = runAll [header] ∧
      Get.ExtensionPrefix header (type, n) := by
  rw [extensionHeader]
  rw [checkLength_of_le hn, pure_bind]
  exact ⟨_, run_eq_runAll _, extensionHeaderBytes_mem type hn⟩

/-! ### Payloads -/

theorem text_runs {bs header : Bytes} (h : textHeader bs.length = runAll [header]) :
    text bs = runAll [header, bs] := by
  rw [text]
  rw [h]
  exact runAll_bind_run [header] bs

theorem binary_runs {bs header : Bytes} (h : binaryHeader bs.length = runAll [header]) :
    binary bs = runAll [header, bs] := by
  rw [binary]
  rw [h]
  exact runAll_bind_run [header] bs

theorem extension_runs {e : Extension} {header : Bytes}
    (h : extensionHeader e.type e.data.length = runAll [header]) :
    extension e = runAll [header, e.data] := by
  rw [extension]
  rw [h]
  exact runAll_bind_run [header] e.data

theorem text_eq {bs : Bytes} (hn : bs.length ≤ maxLength) :
    ∃ header, text bs = runAll [header, bs] ∧ TextHeader header bs.length := by
  obtain ⟨header, heq, hheader⟩ := textHeader_eq hn
  exact ⟨header, text_runs heq, hheader⟩

theorem extension_eq {e : Extension} (hn : e.data.length ≤ maxLength) :
    ∃ header, extension e = runAll [header, e.data] ∧
      Get.ExtensionPrefix header (e.type, e.data.length) := by
  obtain ⟨header, heq, hheader⟩ := extensionHeader_eq e.type hn
  exact ⟨header, extension_runs heq, hheader⟩

/-! ### Refusals -/

section Refusals

variable {n : Nat} {bs : Bytes}

theorem textHeader_refused (hn : maxLength < n) :
    textHeader n = throw (.invalidFormat (.length .string n)) := by
  rw [textHeader]
  rw [checkLength_of_lt hn]
  rfl

theorem binaryHeader_refused (hn : maxLength < n) :
    binaryHeader n = throw (.invalidFormat (.length .binary n)) := by
  rw [binaryHeader]
  rw [checkLength_of_lt hn]
  rfl

theorem arrayHeader_refused (hn : maxLength < n) :
    arrayHeader n = throw (.invalidFormat (.length .array n)) := by
  rw [arrayHeader]
  rw [checkLength_of_lt hn]
  rfl

theorem mapHeader_refused (hn : maxLength < n) :
    mapHeader n = throw (.invalidFormat (.length .map n)) := by
  rw [mapHeader]
  rw [checkLength_of_lt hn]
  rfl

theorem text_refused (hn : maxLength < bs.length) :
    text bs = throw (.invalidFormat (.length .string bs.length)) := by
  rw [text]
  rw [textHeader_refused hn]
  rfl

theorem extension_refused {e : Extension} (hn : maxLength < e.data.length) :
    extension e = throw (.invalidFormat (.length .extension e.data.length)) := by
  unfold extension extensionHeader
  rw [checkLength_of_lt hn]
  rfl

end Refusals

end Put

end MsgPack
