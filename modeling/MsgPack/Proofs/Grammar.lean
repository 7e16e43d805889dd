import MsgPack.Proofs.Language
import MsgPack.Utf8
import MsgPack.Value.Basic

/-!
The grammar of one value, as tables of tags and the strings that follow them.
It knows nothing of how values are read: a tag is a byte, a payload is a string
of a length, and every width that the format offers is allowed for every value
that it can hold. The tag 0xc1 stands in no table.
-/

namespace MsgPack.Grammar

/-- An announced length: by a tag alone, or by a tag and a numeral whose width
goes with the tag. -/
inductive Header (fixed sized : List (UInt8 × Nat)) : Language Nat
  | fixed {tag : UInt8} {n : Nat} (htag : (tag, n) ∈ fixed) : Header fixed sized [tag] n
  | sized {tag : UInt8} {width : Nat} {digits : Bytes} (htag : (tag, width) ∈ sized)
      (hdigits : digits.length = width) : Header fixed sized (tag :: digits) (Bytes.toNat digits)

/-- The tags from `first` on, for the lengths below `count`. -/
def fixTags (first count : Nat) : List (UInt8 × Nat) :=
  (List.range count).map fun n => (UInt8.ofNat (first + n), n)

def fixstrTags : List (UInt8 × Nat) := fixTags 0xa0 32
def strTags : List (UInt8 × Nat) := [(0xd9, 1), (0xda, 2), (0xdb, 4)]
def binTags : List (UInt8 × Nat) := [(0xc4, 1), (0xc5, 2), (0xc6, 4)]
def fixextTags : List (UInt8 × Nat) := [(0xd4, 1), (0xd5, 2), (0xd6, 4), (0xd7, 8), (0xd8, 16)]
def extTags : List (UInt8 × Nat) := [(0xc7, 1), (0xc8, 2), (0xc9, 4)]
def fixarrayTags : List (UInt8 × Nat) := fixTags 0x90 16
def arrayTags : List (UInt8 × Nat) := [(0xdc, 2), (0xdd, 4)]
def fixmapTags : List (UInt8 × Nat) := fixTags 0x80 16
def mapTags : List (UInt8 × Nat) := [(0xde, 2), (0xdf, 4)]

abbrev TextHeader : Language Nat := Header fixstrTags strTags
abbrev BinaryHeader : Language Nat := Header [] binTags
abbrev ExtensionHeader : Language Nat := Header fixextTags extTags
abbrev ArrayHeader : Language Nat := Header fixarrayTags arrayTags
/-- The length of a map is the number of its entries. -/
abbrev MapHeader : Language Nat := Header fixmapTags mapTags

def uintTags : List (UInt8 × Nat) := [(0xcc, 1), (0xcd, 2), (0xce, 4), (0xcf, 8)]
def intTags : List (UInt8 × Nat) := [(0xd0, 1), (0xd1, 2), (0xd2, 4), (0xd3, 8)]

/-- A numeral of `width` digits in two's complement. -/
def signedValue (width n : Nat) : Int :=
  if 2 * n < 256 ^ width then n else n - (256 ^ width : Nat)

/-- Numbers. An integer is kept by its value alone, so that its kind is its
sign; a single is kept as the double it widens to. -/
inductive Numeral : Language Number
  | positiveFixint {n : Nat} {i : WireInt} (hn : n < 0x80) (hi : i.val = n) :
      Numeral [UInt8.ofNat n] (.int i)
  | negativeFixint {n : Nat} {i : WireInt} (hn : 1 ≤ n ∧ n ≤ 0x20) (hi : i.val = -n) :
      Numeral [UInt8.ofNat (0x100 - n)] (.int i)
  | unsigned {tag : UInt8} {width : Nat} {digits : Bytes} {i : WireInt}
      (htag : (tag, width) ∈ uintTags) (hdigits : digits.length = width)
      (hi : i.val = Bytes.toNat digits) : Numeral (tag :: digits) (.int i)
  | signed {tag : UInt8} {width : Nat} {digits : Bytes} {i : WireInt}
      (htag : (tag, width) ∈ intTags) (hdigits : digits.length = width)
      (hi : i.val = signedValue width (Bytes.toNat digits)) : Numeral (tag :: digits) (.int i)
  | single {digits : Bytes} (hdigits : digits.length = 4) :
      Numeral (0xca :: digits) (.float (Single.widen (.ofNat (Bytes.toNat digits))))
  | double {digits : Bytes} (hdigits : digits.length = 8) :
      Numeral (0xcb :: digits) (.float (.ofNat (Bytes.toNat digits)))

mutual

/-- Values with containers nested at most `depth` deep. -/
inductive Derives : (depth : Nat) → Language OwnedValue
  | nil {depth : Nat} : Derives depth [0xc0] .nil
  | false {depth : Nat} : Derives depth [0xc2] (.bool false)
  | true {depth : Nat} : Derives depth [0xc3] (.bool true)
  | number {depth : Nat} {bs : Bytes} {n : Number} (hn : Numeral bs n) :
      Derives depth bs (.number n)
  | string {depth : Nat} {header content : Bytes} (hheader : TextHeader header content.length)
      (hvalid : Utf8.isValid content) : Derives depth (header ++ content) (.string content)
  | binary {depth : Nat} {header content : Bytes}
      (hheader : BinaryHeader header content.length) :
      Derives depth (header ++ content) (.binary content)
  | extension {depth : Nat} {header content : Bytes} {type : Int8}
      (hheader : ExtensionHeader header content.length) :
      Derives depth (header ++ type.toUInt8 :: content) (.extension type content)
  | array {depth : Nat} {header body : Bytes} {elems : List OwnedValue}
      (hheader : ArrayHeader header elems.length) (helems : DerivesElems depth body elems) :
      Derives (depth + 1) (header ++ body) (.array elems)
  | map {depth : Nat} {header body : Bytes} {entries : List (OwnedValue × OwnedValue)}
      (hheader : MapHeader header entries.length)
      (hentries : DerivesEntries depth body entries) :
      Derives (depth + 1) (header ++ body) (.map entries)

inductive DerivesElems : (depth : Nat) → Language (List OwnedValue)
  | nil {depth : Nat} : DerivesElems depth [] []
  | cons {depth : Nat} {bs tail : Bytes} {v : OwnedValue} {vs : List OwnedValue}
      (hv : Derives depth bs v) (hvs : DerivesElems depth tail vs) :
      DerivesElems depth (bs ++ tail) (v :: vs)

/-- The entries of a map, in the order of the wire and as often as they stand
there. -/
inductive DerivesEntries : (depth : Nat) → Language (List (OwnedValue × OwnedValue))
  | nil {depth : Nat} : DerivesEntries depth [] []
  | cons {depth : Nat} {key val tail : Bytes} {k v : OwnedValue}
      {es : List (OwnedValue × OwnedValue)} (hk : Derives depth key k)
      (hv : Derives depth val v) (hes : DerivesEntries depth tail es) :
      DerivesEntries depth (key ++ (val ++ tail)) ((k, v) :: es)

end

mutual

/-- What derives a value within some levels derives it within more. -/
theorem Derives.mono {depth depth' : Nat} {bs : Bytes} {v : OwnedValue} (h : Derives depth bs v)
    (hle : depth ≤ depth') : Derives depth' bs v := by
  cases h with
  | nil => exact .nil
  | false => exact .false
  | true => exact .true
  | number hn => exact .number hn
  | string hheader hvalid => exact .string hheader hvalid
  | binary hheader => exact .binary hheader
  | extension hheader => exact .extension hheader
  | array hheader helems =>
      cases depth' with
      | zero => exact absurd hle (Nat.not_succ_le_zero _)
      | succ inside => exact .array hheader (helems.mono (Nat.le_of_succ_le_succ hle))
  | map hheader hentries =>
      cases depth' with
      | zero => exact absurd hle (Nat.not_succ_le_zero _)
      | succ inside => exact .map hheader (hentries.mono (Nat.le_of_succ_le_succ hle))

theorem DerivesElems.mono {depth depth' : Nat} {bs : Bytes} {vs : List OwnedValue}
    (h : DerivesElems depth bs vs) (hle : depth ≤ depth') : DerivesElems depth' bs vs := by
  cases h with
  | nil => exact .nil
  | cons hv hvs => exact .cons (hv.mono hle) (hvs.mono hle)

theorem DerivesEntries.mono {depth depth' : Nat} {bs : Bytes}
    {es : List (OwnedValue × OwnedValue)} (h : DerivesEntries depth bs es)
    (hle : depth ≤ depth') : DerivesEntries depth' bs es := by
  cases h with
  | nil => exact .nil
  | cons hk hv hes => exact .cons (hk.mono hle) (hv.mono hle) (hes.mono hle)

end

end MsgPack.Grammar
