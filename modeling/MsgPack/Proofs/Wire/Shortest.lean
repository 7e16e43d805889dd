import MsgPack.Proofs.FloatBits.Exact
import MsgPack.Proofs.Value.Encoding

/-!
No entity has a shorter spelling than the one that is written. A header is
written with as few digits as spell its length, an integer in the narrowest
type that holds it, and a double as the single that widens to it if there is
one; the widths that the grammar offers beside these are wider.
-/

namespace MsgPack

open Grammar (Header Numeral TextHeader BinaryHeader ExtensionHeader ArrayHeader MapHeader)
open Put (maxLength)

/-! ### Floats -/

theorem Single.not_isNaN_of_isFinite {x : Single} (h : (widen x).isFinite) : ¬ x.isNaN := by
  intro hx
  have hwide := FloatBits.isNaN_convertNaN (q := .double) x
  rw [← FloatBits.convert_of_gt (FloatBits.isNaN_iff.mp hx)] at hwide
  exact FloatBits.not_isNaN_of_isFinite h hwide

namespace Put

@[simp] theorem length_marker (m : Marker) : (bytes (marker m)).length = 1 := by
  rw [marker_eq, bytes_runAll]
  rfl

@[simp] theorem length_scalar (code : Typecode) (width n : Nat) :
    (bytes (scalar code width n)).length = width + 1 := by
  rw [scalar_eq, bytes_runAll]
  simp

/-! ### Headers -/

section Headers

variable {fixed sized : List (UInt8 × Nat)} {bs : Bytes} {n width : Nat}

/-- What a header costs is to be compared with the tags that hold its length,
and with the widths that spell it. -/
theorem length_header_le {k : Nat} (h : Header fixed sized bs n)
    (hfixed : ∀ tag, (tag, n) ∈ fixed → k ≤ 1)
    (hsized : ∀ tag width, (tag, width) ∈ sized → n < 256 ^ width → k ≤ width + 1) :
    k ≤ bs.length := by
  cases h with
  | fixed htag => exact hfixed _ htag
  | @sized tag width digits htag hdigits =>
      rw [List.length_cons, hdigits]
      exact hsized tag width htag (hdigits ▸ Bytes.toNat_lt digits)

theorem lt_of_mem_fixTags {first count : Nat} {tag : UInt8}
    (h : (tag, n) ∈ Grammar.fixTags first count) : n < count := by
  obtain ⟨k, hk, heq⟩ := List.mem_map.mp h
  obtain ⟨-, rfl⟩ := Prod.mk.inj heq
  exact List.mem_range.mp hk

/-- Two or four digits, as few as do. -/
theorem length_wideHeader_le {code16 code32 : Typecode} (hwidth : width = 2 ∨ width = 4)
    (hn : n < 256 ^ width) :
    (bytes (if n ≤ 0xffff then scalar code16 2 n else scalar code32 4 n)).length ≤
      width + 1 := by
  rcases hwidth with rfl | rfl <;> split <;> rw [length_scalar] <;> omega

/-- One, two or four digits, as few as do. -/
theorem length_sizedHeader_le {code8 code16 code32 : Typecode}
    (hwidth : width = 1 ∨ width = 2 ∨ width = 4) (hn : n < 256 ^ width) :
    (bytes (sizedHeader code8 code16 code32 n)).length ≤ width + 1 := by
  rw [sizedHeader]
  split
  · rw [length_scalar]
    omega
  · next hlt =>
      rcases hwidth with rfl | hwidth
      · omega
      · exact length_wideHeader_le hwidth hn

theorem length_textHeader_le (h : TextHeader bs n) :
    (bytes (textHeader n)).length ≤ bs.length := by
  have hwidths : ∀ e ∈ Grammar.strTags, e.2 = 1 ∨ e.2 = 2 ∨ e.2 = 4 := by decide
  rw [textHeader]
  rw [checkLength_of_le (length_of_header (by decide) (by decide) h), pure_bind]
  refine length_header_le h (fun tag htag => ?_) fun tag width htag hlt => ?_
  · simp [lt_of_mem_fixTags htag]
  · split
    · rw [length_marker]
      exact Nat.le_add_left 1 width
    · exact length_sizedHeader_le (hwidths _ htag) hlt

theorem length_binaryHeader_le (h : BinaryHeader bs n) :
    (bytes (binaryHeader n)).length ≤ bs.length := by
  have hwidths : ∀ e ∈ Grammar.binTags, e.2 = 1 ∨ e.2 = 2 ∨ e.2 = 4 := by decide
  rw [binaryHeader]
  rw [checkLength_of_le (length_of_header (by decide) (by decide) h), pure_bind]
  exact length_header_le h (fun tag htag => absurd htag List.not_mem_nil) fun tag width htag hlt =>
    length_sizedHeader_le (hwidths _ htag) hlt

/-- Containers: a marker alone below `count`, else two or four digits. -/
theorem length_containerHeader_le {first count : Nat} {m : Marker} {code16 code32 : Typecode}
    (hwidths : ∀ e ∈ sized, e.2 = 2 ∨ e.2 = 4)
    (h : Header (Grammar.fixTags first count) sized bs n) :
    (bytes (if n < count then marker m
      else if n ≤ 0xffff then scalar code16 2 n else scalar code32 4 n)).length ≤ bs.length := by
  refine length_header_le h (fun tag htag => ?_) fun tag width htag hlt => ?_
  · simp [lt_of_mem_fixTags htag]
  · split
    · rw [length_marker]
      exact Nat.le_add_left 1 width
    · exact length_wideHeader_le (hwidths _ htag) hlt

theorem length_arrayHeader_le (h : ArrayHeader bs n) :
    (bytes (arrayHeader n)).length ≤ bs.length := by
  rw [arrayHeader]
  rw [checkLength_of_le (length_of_header (by decide) (by decide) h), pure_bind]
  exact length_containerHeader_le (by decide) h

theorem length_mapHeader_le (h : MapHeader bs n) : (bytes (mapHeader n)).length ≤ bs.length := by
  rw [mapHeader]
  rw [checkLength_of_le (length_of_header (by decide) (by decide) h), pure_bind]
  exact length_containerHeader_le (by decide) h

theorem length_extensionHeaderBytes (type : Int8) (n : Nat) :
    (extensionHeaderBytes type n).length =
      if n ∈ [1, 2, 4, 8, 16] then 2 else if n ≤ 0xff then 3 else if n ≤ 0xffff then 4 else 6 := by
  unfold extensionHeaderBytes
  dsimp only
  split
  · rfl
  · rfl
  · rfl
  · rfl
  · rfl
  · next h1 h2 h4 h8 h16 =>
      have hnot : n ∉ [1, 2, 4, 8, 16] := by
        simp only [List.mem_cons, List.not_mem_nil, or_false, not_or]
        exact ⟨h1, h2, h4, h8, h16⟩
      rw [if_neg hnot]
      by_cases hn8 : n ≤ 0xff
      · simp [hn8]
      · by_cases hn16 : n ≤ 0xffff <;> simp [hn8, hn16]

/-- The type code comes on top of the header. -/
theorem length_extensionHeader_le (type : Int8) (h : ExtensionHeader bs n) :
    (bytes (extensionHeader type n)).length ≤ bs.length + 1 := by
  have hfixed : ∀ e ∈ Grammar.fixextTags, e.2 ∈ [1, 2, 4, 8, 16] := by decide
  have hwidths : ∀ e ∈ Grammar.extTags, e.2 = 1 ∨ e.2 = 2 ∨ e.2 = 4 := by decide
  have hwritten : bytes (extensionHeader type n) = extensionHeaderBytes type n := by
    rw [extensionHeader]
    rw [checkLength_of_le (length_of_header (by decide) (by decide) h), pure_bind]
    exact (congrArg bytes (run_eq_runAll _)).trans (by simp)
  rw [hwritten, length_extensionHeaderBytes]
  refine Nat.le_add_of_sub_le (length_header_le h (fun tag htag => ?_) fun tag width htag hlt => ?_)
  · exact Nat.le_of_eq (congrArg (· - 1) (if_pos (hfixed _ htag)))
  · obtain rfl | rfl | rfl : width = 1 ∨ width = 2 ∨ width = 4 := hwidths _ htag
    all_goals
      split
      · omega
      · split
        · omega
        · split <;> omega

end Headers

/-! ### Numbers -/

/-- A fixint is a byte; everything else has a code in front. -/
theorem length_int (t : IntType) (i : t.Value) :
    (bytes (int t i)).length = if (fixint? t i.val).isSome then 1 else t.bytes + 1 := by
  rw [int]
  cases fixint? t i.val <;> simp

/-- The narrowest type of an integer is no wider than another that holds it. -/
theorem bytes_narrowest_le {t : IntType} {i : Int} (h : t.Contains i) :
    (IntType.narrowest i).bytes ≤ t.bytes := by
  rw [IntType.narrowest]
  cases t <;> simp only [IntType.Contains, IntType.min, IntType.max] at h
  all_goals
    split
    · split
      · decide
      · split
        · first | decide | omega
        · split
          · first | decide | omega
          · first | decide | omega
    · split
      · decide
      · split
        · first | decide | omega
        · split
          · first | decide | omega
          · first | decide | omega

/-- An integer that some type holds takes no more bytes than it does there. -/
theorem length_shortestInt_le {t : IntType} {i : WireInt} (h : t.Contains i.val) :
    (bytes (shortestInt i)).length ≤ t.bytes + 1 := by
  unfold shortestInt
  dsimp only
  rw [length_int]
  split
  · exact Nat.le_add_left 1 _
  · exact Nat.succ_le_succ (bytes_narrowest_le h)

theorem length_shortestInt_fixint {i : WireInt} (h : -0x20 ≤ i.val ∧ i.val < 0x80) :
    (bytes (shortestInt i)).length = 1 := by
  unfold shortestInt
  dsimp only
  rw [length_int, IntType.wrap_of_contains (narrowest_contains i)]
  by_cases hsign : 0 ≤ i.val
  · have hle : i.val ≤ 0x7f := by omega
    have ht : IntType.narrowest i.val = .u8 := by
      rw [IntType.narrowest, if_pos hsign, if_pos (by omega)]
    simp [ht, fixint?, hle]
  · have hlt : i.val < 0 := by omega
    have ht : IntType.narrowest i.val = .i8 := by
      rw [IntType.narrowest, if_neg hsign, if_pos (by omega)]
    simp [ht, fixint?, h.1, hlt]

/-- A finite double that a single widens to is written as a single. -/
theorem length_shortestDouble_widen {x : Single} (h : (Single.widen x).isFinite) :
    (bytes (shortestDouble (Single.widen x))).length = 5 := by
  have hnan : ¬ x.isNaN := Single.not_isNaN_of_isFinite h
  have hsame : ((Single.widen x).narrow.widen == Single.widen x) = true := by
    rw [Single.narrow_widen hnan]
    exact FloatBits.beq_self (FloatBits.not_isNaN_of_isFinite h)
  rw [shortestDouble]
  rw [h, Single.withinSingle_of_isFinite h, hsame]
  exact length_scalar ..

theorem length_shortestDouble_le (x : Double) : (bytes (shortestDouble x)).length ≤ 9 := by
  rw [shortestDouble]
  split
  · exact Nat.le_trans (Nat.le_of_eq (length_scalar ..)) (by decide)
  · exact Nat.le_of_eq (length_scalar ..)

end Put

namespace Number

theorem bytes_int_tree (i : WireInt) :
    (tree (.int i)).bytes .lossless = Put.bytes (Put.shortestInt i) := by
  have hwrap := ofInt_wrap i
  rw [ofInt, Number.int.injEq] at hwrap
  show Put.bytes (Put.shortestInt (IntType.wrap _ i.val).toWire) = _
  rw [hwrap]

/-- No numeral of a number is shorter than the one that is written. -/
theorem length_bytes_le {bs : Bytes} {n : Number} (h : Numeral bs n)
    (hfinite : ∀ x, n = .float x → x.isFinite) :
    (n.tree.bytes .lossless).length ≤ bs.length := by
  cases h with
  | positiveFixint hn hi =>
      rw [bytes_int_tree, Put.length_shortestInt_fixint (by omega)]
      exact Nat.le_refl 1
  | negativeFixint hn hi =>
      rw [bytes_int_tree, Put.length_shortestInt_fixint (by omega)]
      exact Nat.le_refl 1
  | @unsigned tag width digits i htag hdigits hi =>
      obtain ⟨t, -, hsigned, rfl⟩ := Get.intType_of_mem_uintTags htag
      have hvalue := IntType.ofBits_unsigned hsigned (hdigits ▸ Bytes.toNat_lt digits)
      have hcontains := (t.ofBits digits.toNat).property
      rw [hvalue, ← hi] at hcontains
      rw [bytes_int_tree, List.length_cons, hdigits]
      exact Put.length_shortestInt_le hcontains
  | @signed tag width digits i htag hdigits hi =>
      obtain ⟨t, -, hsigned, rfl⟩ := Get.intType_of_mem_intTags htag
      have hvalue := IntType.ofBits_signed hsigned (hdigits ▸ Bytes.toNat_lt digits)
      have hcontains := (t.ofBits digits.toNat).property
      rw [hvalue, ← hi] at hcontains
      rw [bytes_int_tree, List.length_cons, hdigits]
      exact Put.length_shortestInt_le hcontains
  | single hdigits =>
      rw [List.length_cons, hdigits]
      exact Nat.le_of_eq (Put.length_shortestDouble_widen (hfinite _ rfl))
  | double hdigits =>
      rw [List.length_cons, hdigits]
      exact Put.length_shortestDouble_le _

end Number

end MsgPack
