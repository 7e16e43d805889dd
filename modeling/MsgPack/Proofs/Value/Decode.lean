import MsgPack.Proofs.Wire.Reading
import MsgPack.Proofs.Wire.Scalars

/-!
The reader of values accepts exactly the grammar. Its choice by the first byte
and the grammar's choice by tables meet in the forms: for each kind of entity,
the language of the values of that kind, given the language inside containers.
-/

namespace MsgPack

open Grammar (Header Numeral TextHeader BinaryHeader ExtensionHeader ArrayHeader MapHeader
  Derives DerivesElems DerivesEntries)

/-! ### First bytes -/

/-- The string begins with a byte that announces an entity of kind `e`. -/
def Begins (bs : Bytes) (e : EntityType) : Prop :=
  ∃ b rest, bs = b :: rest ∧ (Marker.ofByte b).code.entity? = some e

theorem Begins.append {bs : Bytes} {e : EntityType} (h : Begins bs e) (rest : Bytes) :
    Begins (bs ++ rest) e := by
  obtain ⟨b, tail, rfl, hb⟩ := h
  exact ⟨b, tail ++ rest, rfl, hb⟩

theorem Begins.ne_nil {bs : Bytes} {e : EntityType} (h : Begins bs e) : bs ≠ [] := by
  obtain ⟨b, tail, rfl, -⟩ := h
  exact List.cons_ne_nil b tail

theorem begins_header {fixed sized : List (UInt8 × Nat)} {e : EntityType}
    (hall : ∀ entry ∈ fixed ++ sized, (Marker.ofByte entry.1).code.entity? = some e)
    {bs : Bytes} {n : Nat} (h : Header fixed sized bs n) : Begins bs e := by
  cases h with
  | fixed htag => exact ⟨_, [], rfl, hall _ (List.mem_append_left _ htag)⟩
  | sized htag hdigits => exact ⟨_, _, rfl, hall _ (List.mem_append_right _ htag)⟩

theorem begins_text {bs : Bytes} {n : Nat} (h : TextHeader bs n) : Begins bs .string :=
  begins_header (by decide) h

theorem begins_binary {bs : Bytes} {n : Nat} (h : BinaryHeader bs n) : Begins bs .binary :=
  begins_header (by decide) h

theorem begins_extension {bs : Bytes} {n : Nat} (h : ExtensionHeader bs n) :
    Begins bs .extension :=
  begins_header (by decide) h

theorem begins_array {bs : Bytes} {n : Nat} (h : ArrayHeader bs n) : Begins bs .array :=
  begins_header (by decide) h

theorem begins_map {bs : Bytes} {n : Nat} (h : MapHeader bs n) : Begins bs .map :=
  begins_header (by decide) h

theorem begins_bool {bs : Bytes} {v : Bool} (h : Get.BoolForm bs v) : Begins bs .boolean := by
  cases h <;> exact ⟨_, [], rfl, rfl⟩

theorem begins_uint : ∀ entry ∈ Grammar.uintTags ++ Grammar.intTags,
    (Marker.ofByte entry.1).code.entity? = some .integer := by
  decide

/-- The kind of entity that a number is written as. -/
def Number.entity (n : Number) : EntityType := if n.isInteger then .integer else .floatingPoint

theorem begins_numeral {bs : Bytes} {n : Number} (h : Numeral bs n) : Begins bs n.entity := by
  cases h with
  | @positiveFixint k i hk hi =>
      have hcode : ∀ k < 0x80,
          (Marker.ofByte (.ofNat k)).code.entity? = some .integer := by decide
      exact ⟨_, [], rfl, hcode k hk⟩
  | @negativeFixint k i hk hi =>
      have hcode : ∀ k < 0x21, 1 ≤ k →
          (Marker.ofByte (.ofNat (0x100 - k))).code.entity? = some .integer := by decide
      exact ⟨_, [], rfl, hcode k (by omega) hk.1⟩
  | unsigned htag hdigits hi =>
      exact ⟨_, _, rfl, begins_uint _ (List.mem_append_left _ htag)⟩
  | signed htag hdigits hi =>
      exact ⟨_, _, rfl, begins_uint _ (List.mem_append_right _ htag)⟩
  | single hdigits => exact ⟨_, _, rfl, rfl⟩
  | double hdigits => exact ⟨_, _, rfl, rfl⟩

/-! ### Forms -/

/-- The values of one kind, given those that may stand inside a container, or
that there may be no container. -/
def form (inside : Option (Language OwnedValue)) : EntityType → Language OwnedValue
  | .null => fun bs v => bs = [0xc0] ∧ v = .nil
  | .boolean => Get.BoolForm.image .bool
  | .integer | .floatingPoint => Numeral.image .number
  | .string => Get.TextForm.image .string
  | .binary => Get.BinaryForm.image .binary
  | .extension => Get.ExtensionForm.image fun e => .extension e.1 e.2
  | .array => (inside.elim fun _ _ => False) fun L => (ArrayHeader.seq L.repeated).image .array
  | .map => (inside.elim fun _ _ => False) fun L =>
      (MapHeader.seq (Language.pair L L).repeated).image .map

theorem form_ne_nil {inside : Option (Language OwnedValue)} {e : EntityType} {bs : Bytes}
    {v : OwnedValue} (h : form inside e bs v) : bs ≠ [] := by
  cases e with
  | null =>
      obtain ⟨rfl, -⟩ := h
      exact List.cons_ne_nil _ _
  | boolean =>
      obtain ⟨_, h, -⟩ := h
      exact (begins_bool h).ne_nil
  | integer =>
      obtain ⟨_, h, -⟩ := h
      exact (begins_numeral h).ne_nil
  | floatingPoint =>
      obtain ⟨_, h, -⟩ := h
      exact (begins_numeral h).ne_nil
  | string =>
      obtain ⟨_, ⟨header, content, _, rfl, h, -⟩, -⟩ := h
      exact ((begins_text h).append content).ne_nil
  | binary =>
      obtain ⟨_, ⟨header, content, _, rfl, h, -⟩, -⟩ := h
      exact ((begins_binary h).append content).ne_nil
  | extension =>
      obtain ⟨_, ⟨_, content, _, rfl, ⟨header, h, rfl⟩, -⟩, -⟩ := h
      exact (((begins_extension h).append _).append content).ne_nil
  | array =>
      cases inside with
      | none => exact h.elim
      | some L =>
          obtain ⟨_, ⟨header, body, _, rfl, h, -⟩, -⟩ := h
          exact ((begins_array h).append body).ne_nil
  | map =>
      cases inside with
      | none => exact h.elim
      | some L =>
          obtain ⟨_, ⟨header, body, _, rfl, h, -⟩, -⟩ := h
          exact ((begins_map h).append body).ne_nil

/-- The forms under the kinds that first bytes announce. -/
def announced (inside : Option (Language OwnedValue)) : Language OwnedValue :=
  .byFirst fun b bs v =>
    ∃ e, (Marker.ofByte b).code.entity? = some e ∧ form inside e (b :: bs) v

theorem announced_of_begins {inside : Option (Language OwnedValue)} {e : EntityType}
    {bs : Bytes} {v : OwnedValue} (hb : Begins bs e) (h : form inside e bs v) :
    announced inside bs v := by
  obtain ⟨b, rest, rfl, he⟩ := hb
  exact ⟨b, rest, rfl, e, he, h⟩

namespace Get

variable {α : Type} {inside : Option (Language OwnedValue)} {b : UInt8} {e : EntityType}

/-- A reader of one kind of entity, behind a look at its first byte. -/
theorem AcceptsAt.ofForm {g : Get OwnedValue} (h : Accepts g (form inside e)) :
    AcceptsAt b g fun bs v => ∃ e', some e = some e' ∧ form inside e' (b :: bs) v := by
  refine (AcceptsAt.ofAccepts h fun v hv => form_ne_nil hv rfl).congr fun bs v => ?_
  simp

theorem accepts_take (p : Payload) (f : Bytes → α) :
    Accepts (do return f (← Takes.take p)) (.unit (f p.bytes)) := by
  have htake : (do return f (← Takes.take p) : Get α) = pure (f p.bytes) := rfl
  rw [htake]
  exact .pure _

theorem accepts_string : Accepts (do return Value.string (← Takes.take (← text)))
    (form inside .string) := by
  have h := lends_text.bind (f := fun p => do return Value.string (← Takes.take p))
    (M := fun c => .unit (Value.string c)) fun p => accepts_take p Value.string
  rwa [Language.seq_image] at h

theorem accepts_binary : Accepts (do return Value.binary (← Takes.take (← binary)))
    (form inside .binary) := by
  have h := lends_binary.bind (f := fun p => do return Value.binary (← Takes.take p))
    (M := fun c => .unit (Value.binary c)) fun p => accepts_take p Value.binary
  rwa [Language.seq_image] at h

theorem accepts_extension_value :
    Accepts (do let (type, p) ← extension; return Value.extension type (← Takes.take p))
      (form inside .extension) := by
  have h := accepts_extension
    (f := fun e => do return Value.extension e.1 (← Takes.take e.2))
    (M := fun e => .unit (Value.extension e.1 e.2)) fun type p =>
      accepts_take p (Value.extension type)
  rwa [Language.seq_image fun e : Int8 × Bytes => Value.extension e.1 e.2] at h

theorem accepts_array {g : Get OwnedValue} {L : Language OwnedValue} (hg : Accepts g L) :
    Accepts (do let n ← arrayHeader; return Value.array (← collect g n))
      (form (some L) .array) := by
  have h := (accepts_arrayHeader.bind hg.collect).map Value.array
  rwa [bind_assoc] at h

theorem Accepts.pair {β : Type} {g : Get α} {k : Get β} {L : Language α} {M : Language β}
    (hg : Accepts g L) (hk : Accepts k M) :
    Accepts (do return (← g, ← k)) (Language.pair L M) :=
  hg.bind fun a => hk.map (a, ·)

theorem accepts_map {g : Get OwnedValue} {L : Language OwnedValue} (hg : Accepts g L) :
    Accepts (do let n ← mapHeader; return Value.map (← collect (do return (← g, ← g)) n))
      (form (some L) .map) := by
  have h := (accepts_mapHeader.bind (hg.pair hg).collect).map Value.map
  rwa [bind_assoc] at h

theorem accepts_getWith {get : Option (Get OwnedValue)}
    (hinside : Option.Rel Accepts get inside) :
    Accepts (Value.getWith get) (announced inside) := by
  refine AcceptsAt.marker_bind fun b => ?_
  cases hb : (Marker.ofByte b).code.entity? with
  | none => exact (AcceptsAt.throw _).congr fun bs v => by simp
  | some e =>
      cases e with
      -- the tag of nil is the whole of it, so that nothing is left to check behind it
      | null =>
          obtain rfl : b = 0xc0 := forall_byte (P := fun b =>
            (Marker.ofByte b).code.entity? = some .null → b = 0xc0) (by decide) b hb
          refine (AcceptsAt.after (.pure Value.nil)).congr fun bs v => ?_
          simp [form, Language.unit]
      | boolean => exact AcceptsAt.ofForm (accepts_bool.map Value.bool)
      | integer => exact AcceptsAt.ofForm (accepts_anyNumber.map Value.number)
      | floatingPoint => exact AcceptsAt.ofForm (accepts_anyNumber.map Value.number)
      | string => exact AcceptsAt.ofForm accepts_string
      | binary => exact AcceptsAt.ofForm accepts_binary
      | extension => exact AcceptsAt.ofForm accepts_extension_value
      | array =>
          cases hinside with
          | none => exact (AcceptsAt.throw _).congr fun bs v => by simp [form]
          | some hg => exact AcceptsAt.ofForm (accepts_array hg)
      | map =>
          cases hinside with
          | none => exact (AcceptsAt.throw _).congr fun bs v => by simp [form]
          | some hg => exact AcceptsAt.ofForm (accepts_map hg)

end Get

/-! ### Derivations -/

section Derivations

variable {depth : Nat} {bs : Bytes}

theorem length_of_repeated {α : Type} {L : Language α} {n : Nat} {xs : List α}
    (h : L.repeated n bs xs) : xs.length = n := by
  induction n generalizing bs xs with
  | zero =>
      obtain ⟨-, rfl⟩ := h
      rfl
  | succ n ih =>
      obtain ⟨_, _, x, -, -, tail, htail, rfl⟩ := h
      rw [List.length_cons, ih htail]

theorem derivesElems_iff {vs : List OwnedValue} :
    DerivesElems depth bs vs ↔ Language.repeated (Derives depth) vs.length bs vs := by
  induction vs generalizing bs with
  | nil =>
      refine ⟨?_, ?_⟩
      · rintro ⟨⟩
        exact ⟨rfl, rfl⟩
      · rintro ⟨rfl, -⟩
        exact .nil
  | cons v vs ih =>
      refine ⟨?_, ?_⟩
      · rintro (_ | ⟨hv, hvs⟩)
        exact ⟨_, _, v, rfl, hv, vs, ih.mp hvs, rfl⟩
      · rintro ⟨head, tail, _, rfl, hv, _, hvs, heq⟩
        obtain ⟨rfl, rfl⟩ := List.cons.inj heq
        exact .cons hv (ih.mpr hvs)

theorem derivesEntries_iff {es : List (OwnedValue × OwnedValue)} :
    DerivesEntries depth bs es ↔
      (Language.pair (Derives depth) (Derives depth)).repeated es.length bs es := by
  induction es generalizing bs with
  | nil =>
      refine ⟨?_, ?_⟩
      · rintro ⟨⟩
        exact ⟨rfl, rfl⟩
      · rintro ⟨rfl, -⟩
        exact .nil
  | cons e es ih =>
      refine ⟨?_, ?_⟩
      · rintro (_ | ⟨hk, hv, hes⟩)
        exact ⟨_, _, _, (List.append_assoc ..).symm,
          ⟨_, _, _, rfl, hk, _, hv, rfl⟩, es, ih.mp hes, rfl⟩
      · rintro ⟨_, tail, _, rfl, ⟨key, val, k, rfl, hk, v, hv, rfl⟩, _, hes, heq⟩
        obtain ⟨rfl, rfl⟩ := List.cons.inj heq
        rw [List.append_assoc]
        exact .cons hk hv (ih.mpr hes)

/-- What may stand inside a container, `depth` levels being left. -/
def insideOf : (depth : Nat) → Option (Language OwnedValue)
  | 0 => none
  | depth + 1 => some (Derives depth)

theorem announced_of_derives {v : OwnedValue} (h : Derives depth bs v) :
    announced (insideOf depth) bs v := by
  cases h with
  | nil => exact announced_of_begins ⟨_, _, rfl, rfl⟩ (e := .null) ⟨rfl, rfl⟩
  | false => exact announced_of_begins ⟨_, _, rfl, rfl⟩ (e := .boolean) ⟨_, .false, rfl⟩
  | true => exact announced_of_begins ⟨_, _, rfl, rfl⟩ (e := .boolean) ⟨_, .true, rfl⟩
  | @number _ _ n hn =>
      apply announced_of_begins (begins_numeral hn)
      cases n <;> exact ⟨_, hn, rfl⟩
  | string hheader hvalid =>
      exact announced_of_begins ((begins_text hheader).append _)
        ⟨_, ⟨_, _, _, rfl, hheader, ⟨rfl, rfl⟩, hvalid⟩, rfl⟩
  | binary hheader =>
      exact announced_of_begins ((begins_binary hheader).append _)
        ⟨_, ⟨_, _, _, rfl, hheader, rfl, rfl⟩, rfl⟩
  | @extension _ header content type hheader =>
      refine announced_of_begins ((begins_extension hheader).append _)
        ⟨(type, content), ⟨header ++ [type.toUInt8], content, (type, content.length), by simp,
          ⟨header, hheader, rfl⟩, content, ⟨rfl, rfl⟩, rfl⟩, rfl⟩
  | array hheader helems =>
      exact announced_of_begins ((begins_array hheader).append _)
        ⟨_, ⟨_, _, _, rfl, hheader, derivesElems_iff.mp helems⟩, rfl⟩
  | map hheader hentries =>
      exact announced_of_begins ((begins_map hheader).append _)
        ⟨_, ⟨_, _, _, rfl, hheader, derivesEntries_iff.mp hentries⟩, rfl⟩

theorem derives_of_form {e : EntityType} {v : OwnedValue}
    (h : form (insideOf depth) e bs v) : Derives depth bs v := by
  cases e with
  | null =>
      obtain ⟨rfl, rfl⟩ := h
      exact .nil
  | boolean =>
      obtain ⟨_, hb, rfl⟩ := h
      cases hb with
      | false => exact .false
      | true => exact .true
  | integer =>
      obtain ⟨n, hn, rfl⟩ := h
      exact .number hn
  | floatingPoint =>
      obtain ⟨n, hn, rfl⟩ := h
      exact .number hn
  | string =>
      obtain ⟨_, ⟨header, content, _, rfl, hheader, ⟨rfl, rfl⟩, hvalid⟩, rfl⟩ := h
      exact .string hheader hvalid
  | binary =>
      obtain ⟨_, ⟨header, content, _, rfl, hheader, rfl, rfl⟩, rfl⟩ := h
      exact .binary hheader
  | extension =>
      obtain ⟨_, ⟨_, content, ⟨type, n⟩, rfl, ⟨header, hheader, rfl⟩, _, ⟨rfl, rfl⟩, rfl⟩,
        rfl⟩ := h
      rw [List.append_assoc, List.singleton_append]
      exact .extension hheader
  | array =>
      cases depth with
      | zero => exact h.elim
      | succ depth =>
          obtain ⟨elems, ⟨header, body, n, rfl, hheader, helems⟩, rfl⟩ := h
          obtain rfl := length_of_repeated helems
          exact .array hheader (derivesElems_iff.mpr helems)
  | map =>
      cases depth with
      | zero => exact h.elim
      | succ depth =>
          obtain ⟨entries, ⟨header, body, n, rfl, hheader, hentries⟩, rfl⟩ := h
          obtain rfl := length_of_repeated hentries
          exact .map hheader (derivesEntries_iff.mpr hentries)

theorem derives_iff_announced {v : OwnedValue} :
    Derives depth bs v ↔ announced (insideOf depth) bs v := by
  refine ⟨announced_of_derives, ?_⟩
  rintro ⟨b, rest, rfl, e, -, h⟩
  exact derives_of_form h

end Derivations

/-- The reader of values accepts the derivations within its depth. -/
theorem accepts_get (depth : Nat) : Get.Accepts (Value.get depth) (Derives depth) := by
  -- the reader looks at one byte at a time, as the forms do; derivations are the same in the end
  suffices h : Get.Accepts (Value.get depth) (announced (insideOf depth)) from
    h.congr fun _ _ => derives_iff_announced.symm
  induction depth with
  | zero => exact Get.accepts_getWith .none
  | succ depth ih =>
      exact Get.accepts_getWith (.some (ih.congr fun _ _ => derives_iff_announced.symm))

/-- Reading a value from memory succeeds with `n` bytes consumed exactly if the
first `n` bytes derive that value. -/
theorem run_get_eq_ok_iff (depth : Nat) (input : Bytes) (v : OwnedValue) (s : Source) :
    Get.run (Value.get depth) .memory input = .ok v s ↔
      ∃ n ≤ input.length, Derives depth (input.take n) v ∧
        s = { kind := .memory, left := input.drop n, position := n } := by
  have haccepts := accepts_get depth
  refine ⟨?_, ?_⟩
  · intro h
    obtain ⟨bs, rest, hl, hv, rfl⟩ := haccepts.sound h
    have hinput : input = bs ++ rest := hl
    refine ⟨bs.length, ?_, ?_, ?_⟩
    · rw [hinput, List.length_append]
      exact Nat.le_add_right ..
    · rwa [hinput, List.take_left]
    · simp [Source.advance, Source.ofBytes]
  · rintro ⟨n, hn, hv, rfl⟩
    have hl : (Source.ofBytes .memory input).left = input.take n ++ input.drop n :=
      (List.take_append_drop n input).symm
    have h := haccepts.complete hl hv
    rw [List.length_take, Nat.min_eq_left hn] at h
    apply Eq.trans h
    simp [Source.advance, Source.ofBytes]

/-- The code that is never used begins no value. -/
theorem not_derives_neverUsed (depth : Nat) (bs : Bytes) (v : OwnedValue) :
    ¬ Derives depth (0xc1 :: bs) v := by
  intro h
  obtain ⟨b, rest, heq, e, he, -⟩ := announced_of_derives h
  obtain ⟨rfl, rfl⟩ := List.cons.inj heq
  cases he

end MsgPack
