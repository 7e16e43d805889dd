import MsgPack.Proofs.Wire.Shortest

/-!
The headers of the five families that announce a length. Of every length below
2 ^ 32 one header is written. Its reader takes it for that length and nothing
else, and every other header that the reader takes for the length is as long or
longer. Greater lengths are refused before the sink has seen a byte. Strings,
binaries and extensions are such a header with the content behind it.
-/

namespace MsgPack

open Grammar (TextHeader BinaryHeader ArrayHeader MapHeader)
open Put (maxLength run runAll)

/-! ### Families -/

/-- What is written of a family before its content. -/
def Put.header (type : Int8) : Sized → Nat → Put Nat
  | .string => Put.textHeader
  | .binary => Put.binaryHeader
  | .extension => Put.extensionHeader type
  | .array => Put.arrayHeader
  | .map => Put.mapHeader

/-- What is read of a family before its content: the length, and the type code
if there is one. -/
def Get.header : Sized → Get (Option Int8 × Nat)
  | .string => return (none, ← Get.textHeader)
  | .binary => return (none, ← Get.binaryHeader)
  | .extension => do
    let e ← Get.extensionHeader
    return (some e.1, e.2)
  | .array => return (none, ← Get.arrayHeader)
  | .map => return (none, ← Get.mapHeader)

/-- The writer of a family whose content are bytes. -/
def Put.entity? (type : Int8) : Sized → Option (Bytes → Put Nat)
  | .string => some Put.text
  | .binary => some Put.binary
  | .extension => some fun bs => Put.extension ⟨type, bs⟩
  | .array | .map => none

/-- The reader of a family whose content are bytes. -/
def Get.entity? : Sized → Option (Get Payload)
  | .string => some Get.text
  | .binary => some Get.binary
  | .extension => some do
    let e ← Get.extension
    return e.2
  | .array | .map => none

namespace Sized

variable {what : Sized} {type : Int8} {n : Nat} {bs : Bytes}

/-- Only extensions have a type code. -/
def typeCode? (type : Int8) : Sized → Option Int8
  | extension => some type
  | string | binary | array | map => none

/-- The headers that the grammar has for a family. -/
def Header : Sized → Language (Option Int8 × Nat)
  | string => TextHeader.image (none, ·)
  | binary => BinaryHeader.image (none, ·)
  | extension => Get.ExtensionPrefix.image fun e => (some e.1, e.2)
  | array => ArrayHeader.image (none, ·)
  | map => MapHeader.image (none, ·)

theorem accepts_header (what : Sized) : Get.Accepts (Get.header what) what.Header := by
  cases what with
  | string => exact Get.accepts_textHeader.map (none, ·)
  | binary => exact Get.accepts_binaryHeader.map (none, ·)
  | extension => exact Get.accepts_extensionHeader.map fun e => (some e.1, e.2)
  | array => exact Get.accepts_arrayHeader.map (none, ·)
  | map => exact Get.accepts_mapHeader.map (none, ·)

/-! ### What is written -/

/-- A header is one run. -/
theorem header_eq (what : Sized) (type : Int8) (hn : n ≤ maxLength) :
    ∃ header, Put.header type what n = runAll [header] ∧
      what.Header header (what.typeCode? type, n) := by
  cases what with
  | string =>
      obtain ⟨header, hput, hheader⟩ := Put.textHeader_eq hn
      exact ⟨header, hput, n, hheader, rfl⟩
  | binary =>
      obtain ⟨header, hput, hheader⟩ := Put.binaryHeader_eq hn
      exact ⟨header, hput, n, hheader, rfl⟩
  | extension =>
      obtain ⟨header, hput, hheader⟩ := Put.extensionHeader_eq type hn
      exact ⟨header, hput, (type, n), hheader, rfl⟩
  | array =>
      obtain ⟨header, hput, hheader⟩ := Put.arrayHeader_eq hn
      exact ⟨header, hput, n, hheader, rfl⟩
  | map =>
      obtain ⟨header, hput, hheader⟩ := Put.mapHeader_eq hn
      exact ⟨header, hput, n, hheader, rfl⟩

/-- The type code of an extension does not matter for how long its header is. -/
theorem length_header_le {code : Option Int8} (type : Int8) (h : what.Header bs (code, n)) :
    (Put.bytes (Put.header type what n)).length ≤ bs.length := by
  cases what with
  | string =>
      obtain ⟨_, hheader, rfl, rfl⟩ := h
      exact Put.length_textHeader_le hheader
  | binary =>
      obtain ⟨_, hheader, rfl, rfl⟩ := h
      exact Put.length_binaryHeader_le hheader
  | extension =>
      obtain ⟨e, ⟨header, hheader, rfl⟩, heq⟩ := h
      obtain ⟨-, rfl⟩ := Prod.mk.inj heq
      rw [List.length_append]
      exact Put.length_extensionHeader_le type hheader
  | array =>
      obtain ⟨_, hheader, rfl, rfl⟩ := h
      exact Put.length_arrayHeader_le hheader
  | map =>
      obtain ⟨_, hheader, rfl, rfl⟩ := h
      exact Put.length_mapHeader_le hheader

theorem header_refused (what : Sized) (type : Int8) (hn : maxLength < n) :
    Put.header type what n = throw (.invalidFormat (.length what n)) := by
  cases what with
  | string => exact Put.textHeader_refused hn
  | binary => exact Put.binaryHeader_refused hn
  | extension =>
      simp only [Put.header, Put.extensionHeader, Put.checkLength_of_lt hn]
      rfl
  | array => exact Put.arrayHeader_refused hn
  | map => exact Put.mapHeader_refused hn

/-! ### Content -/

/-- Content follows the header, whichever family it is of. -/
theorem entity_eq {write : Bytes → Put Nat} (hwrite : write ∈ Put.entity? type what) (bs : Bytes) :
    write bs = do
      let k ← Put.header type what bs.length
      run bs
      return k + bs.length := by
  cases what <;> simp [Put.entity?] at hwrite <;> subst hwrite <;> rfl

/-- A string is checked to be one, and that is all that is asked of content. -/
theorem entity_of_header {read : Get Payload} {s : Source} {code : Option Int8}
    {header content rest : Bytes} (hread : read ∈ Get.entity? what)
    (hheader : what.Header header (code, content.length))
    (hvalid : what = .string → Utf8.isValid content) (hl : s.left = header ++ content ++ rest) :
    ∃ p : Payload, p.bytes = content ∧ read s = .ok p (s.advance (header ++ content).length) := by
  cases what with
  | string =>
      obtain rfl : Get.text = read := Option.some.inj hread
      obtain ⟨n, hlength, heq⟩ := hheader
      obtain ⟨-, rfl⟩ := Prod.mk.inj heq
      obtain ⟨p, -, hp, hrun⟩ := Get.lends_text.complete hl
        ⟨header, content, _, rfl, hlength, ⟨rfl, rfl⟩, hvalid rfl⟩
      exact ⟨p, hp, hrun⟩
  | binary =>
      obtain rfl : Get.binary = read := Option.some.inj hread
      obtain ⟨n, hlength, heq⟩ := hheader
      obtain ⟨-, rfl⟩ := Prod.mk.inj heq
      obtain ⟨p, -, hp, hrun⟩ := Get.lends_binary.complete hl
        ⟨header, content, _, rfl, hlength, rfl, rfl⟩
      exact ⟨p, hp, hrun⟩
  | extension =>
      obtain rfl := Option.some.inj hread
      obtain ⟨e, ⟨tag, htag, rfl⟩, heq⟩ := hheader
      obtain ⟨-, hlength⟩ := Prod.mk.inj heq
      rw [← hlength] at htag
      have hspread : tag ++ [e.1.toUInt8] ++ content = tag ++ e.1.toUInt8 :: content := by simp
      rw [hspread] at hl ⊢
      obtain ⟨p, -, hp, hrun⟩ := Get.extension_of_left htag hl
      exact ⟨p, hp, bind_of_ok hrun⟩
  | array => cases hread
  | map => cases hread

/-! ### All headers -/

/-- The header is what a family has for a length: it is written for it, it is
read as it and as nothing else, and no other header that is read as it is
shorter. Where content follows, it is written and read behind the header. -/
structure Announces (what : Sized) (type : Int8) (n : Nat) (header : Bytes) : Prop where
  written : Put.header type what n = do
    run header
    return header.length
  read : ∀ (s : Source) (rest : Bytes), s.left = header ++ rest →
    Get.header what s = .ok (what.typeCode? type, n) (s.advance header.length)
  shortest : ∀ (s t : Source) (code : Option Int8), Get.header what s = .ok (code, n) t →
    s.position + header.length ≤ t.position
  content_written : ∀ write ∈ Put.entity? type what, ∀ content : Bytes, content.length = n →
    write content = do
      run header
      run content
      return header.length + n
  content_read : ∀ read ∈ Get.entity? what, ∀ (s : Source) (content rest : Bytes),
    content.length = n → (what = .string → Utf8.isValid content) →
    s.left = header ++ content ++ rest →
    ∃ p : Payload, p.bytes = content ∧ read s = .ok p (s.advance (header ++ content).length)

theorem announces_of_header {header : Bytes} (hput : Put.header type what n = runAll [header])
    (hheader : what.Header header (what.typeCode? type, n)) : what.Announces type n header := by
  have hone : Put.header type what n = do
      run header
      return header.length := hput.trans (Put.run_eq_runAll header).symm
  refine ⟨hone, ?_, ?_, ?_, ?_⟩
  · intro s rest hl
    exact (accepts_header what).complete hl hheader
  · intro s t code hrun
    obtain ⟨bs, rest, -, hbs, rfl⟩ := (accepts_header what).sound hrun
    have hle := length_header_le type hbs
    rw [hput, Put.bytes_runAll, List.flatten_singleton] at hle
    simpa using hle
  · intro write hwrite content hlength
    subst hlength
    simp [entity_eq hwrite, hone]
  · intro read hread s content rest hlength hvalid hl
    subst hlength
    exact entity_of_header hread hheader hvalid hl

/-- Every length below 2 ^ 32 has its header, in every family and with every
type code. From 2 ^ 32 on the header is refused, and with it the content, and
the sink is left as it was. -/
theorem header_exact_minimal (what : Sized) (type : Int8) (n : Nat) :
    (n < 2 ^ 32 → ∃ header, what.Announces type n header) ∧
      (2 ^ 32 ≤ n → ∀ sink : Sink,
        Put.header type what n sink = .error (.invalidFormat (.length what n)) sink ∧
        ∀ write ∈ Put.entity? type what, ∀ content : Bytes, content.length = n →
          write content sink = .error (.invalidFormat (.length what n)) sink) := by
  refine ⟨fun hn => ?_, fun hn sink => ?_⟩
  · have hle : n ≤ maxLength := by
      unfold maxLength
      omega
    obtain ⟨header, hput, hheader⟩ := header_eq what type hle
    exact ⟨header, announces_of_header hput hheader⟩
  · have hlt : maxLength < n := by
      unfold maxLength
      omega
    have hrefused := header_refused what type hlt
    refine ⟨by rw [hrefused]; rfl, ?_⟩
    intro write hwrite content hlength
    subst hlength
    rw [entity_eq hwrite, hrefused]
    rfl

/-- Sixteen bytes of an extension are announced by a tag alone. -/
theorem header_exact_minimal_fixext :
    16 < 2 ^ 32 ∧ ∃ header, extension.Announces (-5) 16 header ∧ header = [0xd8, 0xfb] := by
  obtain ⟨header, h⟩ := (header_exact_minimal .extension (-5) 16).1 (by decide)
  refine ⟨by decide, header, h, ?_⟩
  have hbytes := congrArg Put.bytes (h.written.trans (Put.run_eq_runAll header))
  rw [Put.bytes_runAll, List.flatten_singleton] at hbytes
  rw [← hbytes]
  decide

end Sized

end MsgPack
