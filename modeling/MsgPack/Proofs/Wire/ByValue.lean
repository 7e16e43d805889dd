import MsgPack.Proofs.Wire.Fitting

/-!
What the readers of leaves make of a value depends on the value, not on the
bytes that spell it. A reader refuses every value of another kind by its first
byte, and of a value of its own kind it sees no more than what that is.
-/

namespace MsgPack

open Grammar (Derives)

/-- The run answers as told, with a state of which `p` holds, or fails with an
error of the kind that is told. -/
inductive Ended {σ α : Type} (result : EStateM.Result Error σ α) (p : σ → Prop) :
    Except ErrorKind α → Prop
  | ok {a : α} {t : σ} (h : result = .ok a t) (ht : p t) : Ended result p (.ok a)
  | error {k : ErrorKind} {e : Error} {t : σ} (h : result = .error e t) (hk : e.kind = k) :
      Ended result p (.error k)

theorem Ended.of_ok {σ α : Type} {result : EStateM.Result Error σ α} {p : σ → Prop} {a : α} {t : σ}
    {r : Except ErrorKind α} (h : Ended result p r) (hresult : result = .ok a t) : r = .ok a := by
  cases h with
  | ok h' ht =>
      obtain ⟨rfl, -⟩ := EStateM.Result.ok.inj (h'.symm.trans hresult)
      rfl
  | error h' hk => cases h'.symm.trans hresult

/-- The kind of entity that a value is spelled as. -/
def Value.entity : OwnedValue → EntityType
  | .nil => .null
  | .bool _ => .boolean
  | .number (.int _) => .integer
  | .number (.float _) => .floatingPoint
  | .string _ => .string
  | .binary _ => .binary
  | .extension .. => .extension
  | .array _ => .array
  | .map _ => .map

theorem begins_of_derives {depth : Nat} {bs : Bytes} {v : OwnedValue} (h : Derives depth bs v) :
    Begins bs v.entity := by
  cases h with
  | nil => exact ⟨_, [], rfl, rfl⟩
  | false => exact begins_bool .false
  | true => exact begins_bool .true
  | @number _ _ n hn =>
      have hbegins := begins_numeral hn
      cases n <;> exact hbegins
  | string hheader hvalid => exact (begins_text hheader).append _
  | binary hheader => exact (begins_binary hheader).append _
  | extension hheader => exact (begins_extension hheader).append _
  | array hheader helems => exact (begins_array hheader).append _
  | map hheader hentries => exact (begins_map hheader).append _

theorem Value.exists_number {v : OwnedValue} (h : v.entity.isNumber = true) :
    ∃ n, v = .number n := by
  cases v with
  | number n => exact ⟨n, rfl⟩
  | _ => cases h

theorem Value.exists_string {v : OwnedValue} (h : v.entity = .string) :
    ∃ bs, v = .string bs := by
  cases v with
  | string bs => exact ⟨bs, rfl⟩
  | number n => cases n <;> cases h
  | _ => cases h

theorem Value.exists_array {v : OwnedValue} (h : v.entity = .array) : ∃ vs, v = .array vs := by
  cases v with
  | array vs => exact ⟨vs, rfl⟩
  | number n => cases n <;> cases h
  | _ => cases h

theorem Value.exists_map {v : OwnedValue} (h : v.entity = .map) : ∃ es, v = .map es := by
  cases v with
  | map es => exact ⟨es, rfl⟩
  | number n => cases n <;> cases h
  | _ => cases h

namespace Get

variable {α β : Type} {g : Get α} {P : EntityType → Prop}

/-- Entities of other kinds are refused. -/
def Refuses (g : Get α) (P : EntityType → Prop) : Prop :=
  ∀ (s : Source) (b : UInt8) (rest : Bytes) (e : EntityType), s.left = b :: rest →
    (Marker.ofByte b).code.entity? = some e → ¬ P e →
      ∃ err t, g s = .error err t ∧ err.kind = .unexpectedFormat

theorem Refuses.bind (h : Refuses g P) (f : α → Get β) : Refuses (g >>= f) P := by
  intro s b rest e hl he hother
  obtain ⟨err, t, herr, hkind⟩ := h s b rest e hl he hother
  exact ⟨err, t, bind_of_error herr, hkind⟩

/-- A reader that refuses a marker after a look at it. -/
theorem refuses_of_marker {f : Marker → Get α} (expected : Expected)
    (h : ∀ b e, (Marker.ofByte b).code.entity? = some e → ¬ P e →
      f (.ofByte b) = refuse expected (.ofByte b)) : Refuses (marker >>= f) P := by
  intro s b rest e hl he hother
  rw [bind_of_ok (marker_cons hl), h b e he hother]
  exact ⟨_, _, rfl, rfl⟩

theorem refuses_nil : Refuses nil (· = .null) := by
  refine refuses_of_marker .nil fun b e he hother => ?_
  split
  · next hcode =>
      rw [hcode] at he
      exact absurd (Option.some.inj he).symm hother
  · rfl

theorem refuses_bool : Refuses bool (· = .boolean) := by
  refine refuses_of_marker .boolean fun b e he hother => ?_
  split
  · next hcode =>
      rw [hcode] at he
      exact absurd (Option.some.inj he).symm hother
  · next hcode =>
      rw [hcode] at he
      exact absurd (Option.some.inj he).symm hother
  · rfl

theorem refuses_anyNumber : Refuses anyNumber (·.isNumber = true) := by
  refine refuses_of_marker .number fun b e he hother => ?_
  -- every code either announces a number or is refused
  cases hcode : (Marker.ofByte b).code <;> rw [hcode] at he <;> cases he
  all_goals first
    | rfl
    | exact absurd rfl hother

/-- A family of lengths refuses what is not in its tables. -/
theorem refuses_length {lengthOf : Marker → Option (Nat ⊕ Nat)} {fixed sized : List (UInt8 × Nat)}
    {e : EntityType} (h : Tabulates lengthOf fixed sized) (expected : Expected)
    (hall : ∀ entry ∈ fixed ++ sized, (Marker.ofByte entry.1).code.entity? = some e) :
    Refuses (length expected lengthOf) (· = e) := by
  refine refuses_of_marker expected fun b e' he hother => ?_
  have hsame : ∀ n, (b, n) ∈ fixed ++ sized → e' = e := fun n hn =>
    Option.some.inj (he.symm.trans (hall _ hn))
  cases hb : lengthOf (.ofByte b) with
  | none => rfl
  | some found =>
      cases found with
      | inl n => exact absurd (hsame n (List.mem_append_left _ (h.mem_fixed.mp hb))) hother
      | inr n => exact absurd (hsame n (List.mem_append_right _ (h.mem_sized.mp hb))) hother

theorem refuses_textHeader : Refuses textHeader (· = .string) :=
  refuses_length textLength_tabulates .string (by decide)

theorem refuses_binaryHeader : Refuses binaryHeader (· = .binary) :=
  refuses_length binaryLength_tabulates .binary (by decide)

theorem refuses_extensionHeader : Refuses extensionHeader (· = .extension) :=
  (refuses_length extensionLength_tabulates .extension (by decide)).bind _

theorem refuses_arrayHeader : Refuses arrayHeader (· = .array) :=
  refuses_length arrayLength_tabulates .array (by decide)

theorem refuses_mapHeader : Refuses mapHeader (· = .map) :=
  refuses_length mapLength_tabulates .map (by decide)

/-! ### Readers of values -/

/-- What the reader makes of the value, on any source. -/
def Makes (g : Get α) (v : OwnedValue) (r : Except ErrorKind α) : Prop :=
  ∀ (depth : Nat) (s : Source) (bs rest : Bytes), Derives depth bs v → s.left = bs ++ rest →
    Ended (g s) (· = s.advance bs.length) r

/-- What the reader makes of a value depends on nothing else. -/
def ByValue (g : Get α) : Prop := ∀ v : OwnedValue, ∃ r, g.Makes v r

theorem Refuses.makes (h : Refuses g P) {v : OwnedValue} (hv : ¬ P v.entity) :
    g.Makes v (.error .unexpectedFormat) := by
  intro depth s bs rest hderives hl
  obtain ⟨b, tail, rfl, he⟩ := begins_of_derives hderives
  obtain ⟨err, t, herr, hkind⟩ := h s b _ _ hl he hv
  exact .error herr hkind

theorem Refuses.byValue (h : Refuses g P) (hread : ∀ v, P v.entity → ∃ r, g.Makes v r) :
    ByValue g := by
  intro v
  by_cases hv : P v.entity
  · exact hread v hv
  · exact ⟨_, h.makes hv⟩

theorem byValue_nil : ByValue nil := by
  refine refuses_nil.byValue fun v hv => ?_
  cases v with
  | nil =>
      refine ⟨.ok (), fun depth s bs rest h hl => ?_⟩
      cases h
      exact .ok (accepts_nil.complete hl rfl) rfl
  | number n => cases n <;> cases hv
  | _ => cases hv

theorem byValue_bool : ByValue bool := by
  refine refuses_bool.byValue fun v hv => ?_
  cases v with
  | bool b =>
      refine ⟨.ok b, fun depth s bs rest h hl => ?_⟩
      have hform : BoolForm bs b := by
        cases h with
        | false => exact .false
        | true => exact .true
      exact .ok (accepts_bool.complete hl hform) rfl
  | number n => cases n <;> cases hv
  | _ => cases hv

theorem makes_anyNumber (n : Number) : anyNumber.Makes (.number n) (.ok n) := by
  intro depth s bs rest h hl
  cases h with
  | number hn => exact .ok (accepts_anyNumber.complete hl hn) rfl

theorem byValue_anyNumber : ByValue anyNumber := by
  refine refuses_anyNumber.byValue fun v hv => ?_
  obtain ⟨n, rfl⟩ := Value.exists_number hv
  exact ⟨_, makes_anyNumber n⟩

/-- Numbers are fitted into a target by their value, where their kind is let
through. -/
theorem byValue_fitting {P : Option EntityType → Prop} [DecidablePred P]
    (target? : Number → Option α) (expected : Expected)
    (hnumber : ∀ e, P (some e) → e.isNumber = true) :
    ByValue (fitting P target? expected) := by
  have hrefuses : Refuses (fitting P target? expected) (fun e => P (some e)) :=
    refuses_of_marker expected fun b e he hother => if_neg (he ▸ hother)
  refine hrefuses.byValue fun v hv => ?_
  obtain ⟨n, rfl⟩ := Value.exists_number (hnumber _ hv)
  refine ⟨(target? n).elim (.error .invalidData) .ok, fun depth s bs rest h hl => ?_⟩
  have hn : Grammar.Numeral bs n := by
    cases h with
    | number hn => exact hn
  rw [fitting_of_numeral hn hl (by cases n <;> exact hv)]
  cases target? n with
  | none => exact .error rfl rfl
  | some a => exact .ok rfl rfl

theorem byValue_int (t : IntType) : ByValue (DecodePolicy.widening.int t) := by
  refine byValue_fitting (P := (· = some .integer)) (fun n => n.toInt? t) .integer ?_
  rintro e ⟨⟩
  rfl

theorem byValue_float (p : Precision) : ByValue (DecodePolicy.widening.float p) := by
  refine byValue_fitting (P := (· = some .floatingPoint)) (fun n => n.toFloat? p) .float ?_
  rintro e ⟨⟩
  rfl

theorem byValue_text : ByValue (do Storage.owned.take (← text)) := by
  refine ((refuses_textHeader.bind _).bind _).byValue fun v hv => ?_
  cases v with
  | string content =>
      refine ⟨.ok content, fun depth s bs rest h hl => ?_⟩
      cases h with
      | string hheader hvalid =>
          obtain ⟨p, -, rfl, htext⟩ := lends_text.complete hl
            ⟨_, _, _, rfl, hheader, ⟨rfl, rfl⟩, hvalid⟩
          exact .ok (bind_of_ok htext) rfl
  | number n => cases n <;> cases hv
  | _ => cases hv

theorem byValue_binary : ByValue (do Storage.owned.take (← binary)) := by
  refine ((refuses_binaryHeader.bind _).bind _).byValue fun v hv => ?_
  cases v with
  | binary content =>
      refine ⟨.ok content, fun depth s bs rest h hl => ?_⟩
      cases h with
      | binary hheader =>
          obtain ⟨p, -, rfl, hbinary⟩ := lends_binary.complete hl ⟨_, _, _, rfl, hheader, rfl, rfl⟩
          exact .ok (bind_of_ok hbinary) rfl
  | number n => cases n <;> cases hv
  | _ => cases hv

theorem byValue_extension :
    ByValue (do
      let (type, p) ← extension
      return (⟨type, ← Storage.owned.take p⟩ : Extension)) := by
  refine ((refuses_extensionHeader.bind _).bind _).byValue fun v hv => ?_
  cases v with
  | extension type content =>
      refine ⟨.ok ⟨type, content⟩, fun depth s bs rest h hl => ?_⟩
      cases h with
      | extension hheader =>
          obtain ⟨p, -, rfl, hextension⟩ := extension_of_left hheader hl
          exact .ok (bind_of_ok hextension) rfl
  | number n => cases n <;> cases hv
  | _ => cases hv

end Get

end MsgPack
