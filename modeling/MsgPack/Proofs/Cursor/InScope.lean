import MsgPack.Proofs.Cursor.ByValue

/-!
Containers by their values. Whatever is read from a container is read in a scope
of its own, to the end of it; it depends on the value of the container if it
depends on the values inside.
-/

namespace MsgPack.Cursor

open Grammar (Derives DerivesElems DerivesEntries)

variable {α β : Type} {levels : Nat} {kind : Container} {L L' : Bytes → Prop} {body : Step α}

theorem refuses_headerOf (kind : Container) : (headerOf kind).Refuses (· = kind.entity) := by
  cases kind with
  | array => exact Get.refuses_arrayHeader
  | map => exact Get.refuses_mapHeader

/-- What does not begin as the container is refused. -/
theorem Ends.inScope_refused {fs fs' : List Frame} {e : EntityType} (hL : ∀ bs, L bs → Begins bs e)
    (hother : e ≠ kind.entity) (hfs : Readable fs) :
    Ends (inScope kind body) fs fs' levels L (.error .unexpectedFormat) := by
  intro c bs rest hbs hc
  obtain ⟨b, tail, rfl, he⟩ := hL bs hbs
  obtain ⟨err, t, herr, hkind⟩ := refuses_headerOf kind c.source b _ e hc.left he hother
  exact .error (bind_of_error (beginScope_of_error (hc.frames ▸ hfs) herr)) hkind

/-- A container is an element, whose content is read in the scope that is opened
for it. -/
theorem Ends.inScope {n : Nat} {r : Except ErrorKind α} {fs : List Frame} (hfs : Readable fs)
    (h : ∀ key outer,
      Ends body (.opened kind key n :: outer) (.opened kind key 0 :: outer) levels L r) :
    Ends (inScope kind body) fs (fs.modifyHead Frame.stepped) (levels + 1)
      (Then (kind.Opening · n) L) r := by
  rintro c _ rest ⟨header, content, rfl, hopening, hcontent⟩ hc
  have hleft : c.source.left = header ++ (content ++ rest) := by rw [hc.left, List.append_assoc]
  have hroom := hc.room
  have hopen := beginScope_of_room hopening (hc.frames ▸ hfs) hleft (by rw [hc.frames]; omega)
  rw [hc.frames] at hopen
  have hinside : Before (c.moved header.length
      (.opened kind (c.lastId + 1) n :: fs.modifyHead Frame.stepped) (c.lastId + 1))
      (.opened kind (c.lastId + 1) n :: fs.modifyHead Frame.stepped) levels content rest := by
    refine ⟨Source.left_advance_length hleft, rfl, ?_, hc.policy⟩
    rw [List.length_cons, length_modifyHead]
    exact Nat.le_trans (Nat.le_of_eq (by omega)) hroom
  rw [Cursor.inScope, bind_of_ok hopen]
  have hbody := h (c.lastId + 1) (fs.modifyHead Frame.stepped) _ content rest hcontent hinside
  cases hbody with
  | error hrun hk => exact .error (bind_of_error hrun) hk
  | ok hrun ht =>
      obtain ⟨id, rfl⟩ := ht
      refine .ok ((bind_of_ok hrun).trans (bind_of_ok (endScope_of_frames rfl))) ⟨id, ?_⟩
      simp [moved]

namespace ByValue

/-- What is read from an array depends on its elements. -/
theorem array (h : ∀ (vs : List OwnedValue) (levels : Nat),
    Within body (.opened .array · vs.length) (.opened .array · 0) levels
      (DerivesElems levels · vs)) : ByValue (inScope .array body) := by
  intro v levels
  by_cases hv : v.entity = .array
  · obtain ⟨vs, rfl⟩ := Value.exists_array hv
    cases levels with
    | zero => exact ⟨.error .recursionLimit, fun fs hfs c bs rest hbs hc => by cases hbs⟩
    | succ levels =>
        obtain ⟨r, hr⟩ := h vs levels
        refine ⟨r, fun fs hfs => (Ends.inScope hfs hr).mono fun bs hbs => ?_⟩
        cases hbs with
        | array hheader helems => exact ⟨_, _, rfl, hheader, helems⟩
  · exact ⟨_, fun fs hfs => .inScope_refused (fun _ => begins_of_derives) hv hfs⟩

/-- What is read from a map depends on its entries, in their order. -/
theorem map_entries (h : ∀ (es : List (OwnedValue × OwnedValue)) (levels : Nat),
    Within body (.opened .map · (2 * es.length)) (.opened .map · 0) levels
      (DerivesEntries levels · es)) : ByValue (inScope .map body) := by
  intro v levels
  by_cases hv : v.entity = .map
  · obtain ⟨es, rfl⟩ := Value.exists_map hv
    cases levels with
    | zero => exact ⟨.error .recursionLimit, fun fs hfs c bs rest hbs hc => by cases hbs⟩
    | succ levels =>
        obtain ⟨r, hr⟩ := h es levels
        refine ⟨r, fun fs hfs => (Ends.inScope hfs hr).mono fun bs hbs => ?_⟩
        cases hbs with
        | map hheader hentries => exact ⟨_, _, rfl, ⟨_, hheader, rfl⟩, hentries⟩
  · exact ⟨_, fun fs hfs => .inScope_refused (fun _ => begins_of_derives) hv hfs⟩

end ByValue

/-! ### Elements and entries -/

theorem then_of_elems {v : OwnedValue} {vs : List OwnedValue} {bs : Bytes}
    (h : DerivesElems levels bs (v :: vs)) :
    Then (Derives levels · v) (DerivesElems levels · vs) bs := by
  cases h with
  | cons hv hvs => exact ⟨_, _, rfl, hv, hvs⟩

theorem then_of_entries {k v : OwnedValue} {es : List (OwnedValue × OwnedValue)} {bs : Bytes}
    (h : DerivesEntries levels bs ((k, v) :: es)) :
    Then (Derives levels · k) (Then (Derives levels · v) (DerivesEntries levels · es)) bs := by
  cases h with
  | cons hk hv hes => exact ⟨_, _, rfl, hk, _, _, rfl, hv, hes⟩

theorem empty_of_elems {bs : Bytes} (h : DerivesElems levels bs []) : Empty bs := by
  cases h
  rfl

theorem empty_of_entries {bs : Bytes} (h : DerivesEntries levels bs []) : Empty bs := by
  cases h
  rfl

theorem within_collect {elem : Step α} (h : ByValue elem) (vs : List OwnedValue) :
    Within (collect elem vs.length) (.opened .array · vs.length) (.opened .array · 0) levels
      (DerivesElems levels · vs) := by
  induction vs with
  | nil => exact (Within.pure []).mono fun _ => empty_of_elems
  | cons v vs ih =>
      rw [List.length_cons, collect_succ]
      exact ((h.inArray v vs.length).bind fun a => ih.map (a :: ·)).mono fun _ => then_of_elems

theorem ByValue.elements {elem : Step α} (h : ByValue elem) : ByValue (elements elem) := by
  have hinScope : Cursor.elements elem = inScope .array (do collect elem (← elemLeft)) := by
    simp only [Cursor.elements, inScope, bind_assoc]
  rw [hinScope]
  exact .array fun vs levels => (within_collect h vs).elemLeft

theorem within_entries {k : Step α} {v : Step β} (hk : ByValue k) (hv : ByValue v)
    (es : List (OwnedValue × OwnedValue)) :
    Within (collect (do announceKey; return (← k, ← v)) es.length)
      (.opened .map · (2 * es.length)) (.opened .map · 0) levels (DerivesEntries levels · es) := by
  induction es with
  | nil => exact (Within.pure []).mono fun _ => empty_of_entries
  | cons e es ih =>
      obtain ⟨x, y⟩ := e
      rw [List.length_cons, collect_succ, bind_assoc]
      refine Within.announceKey ?_
      rw [bind_assoc]
      refine ((hk.asKey x es.length).bind fun a => ?_).mono fun _ => then_of_entries
      rw [bind_assoc]
      refine (hv.asValue y es.length).bind fun b => ?_
      rw [pure_bind]
      exact ih.map ((a, b) :: ·)

theorem ByValue.entries {k : Step α} {v : Step β} (hk : ByValue k) (hv : ByValue v) :
    ByValue (entries k v) := by
  have hinScope : Cursor.entries k v =
      inScope .map (do collect (do announceKey; return (← k, ← v)) ((← elemLeft) / 2)) := by
    simp only [Cursor.entries, inScope, bind_assoc]
  rw [hinScope]
  refine .map_entries fun es levels => .elemLeft ?_
  rw [Nat.mul_div_cancel_left _ Nat.two_pos]
  exact within_entries hk hv es

/-! ### Values -/

theorem ByValue.valueWith {inside : Step OwnedValue} (h : ByValue inside) :
    ByValue (valueWith .owned inside) := by
  refine .typeNext fun e => ?_
  cases e with
  | null => exact (ByValue.leaf Get.byValue_nil).map fun _ => Value.nil
  | boolean => exact (ByValue.leaf Get.byValue_bool).map Value.bool
  | integer => exact (ByValue.leaf Get.byValue_anyNumber).map Value.number
  | floatingPoint => exact (ByValue.leaf Get.byValue_anyNumber).map Value.number
  | string => exact ByValue.text.map Value.string
  | binary => exact ByValue.binary.map Value.binary
  | extension => exact ByValue.extension.map fun e => Value.extension e.type e.data
  | array => exact h.elements.map Value.array
  | map => exact (h.entries h).map Value.map

theorem ByValue.valueWithin (levels : Nat) : ByValue (valueWithin .owned levels) := by
  induction levels with
  | zero => exact ByValue.tooDeep.valueWith
  | succ levels ih => exact ih.valueWith

/-- A value is read as what it is. How deep it may be is for each cursor to say,
but on memory it is known what is read, and it is the same on every source. -/
theorem ByValue.value : ByValue (value .owned) := by
  intro v levels
  refine ⟨.ok v, fun fs hfs c bs rest hbs hc => ?_⟩
  obtain ⟨r, hr⟩ := ByValue.valueWithin (c.maxDepth - c.frames.length) v levels
  have hready : Ready { c with source := .ofBytes .memory (bs ++ rest) } fs levels bs rest := by
    refine ⟨rfl, rfl, hc.frames, hc.room, ?_⟩
    rw [hc.policy]
    exact DecodePolicy.noConfusion
  obtain ⟨id, hid⟩ := element_value (fun depth hdepth => hbs.mono hdepth) fs hfs _ rest hready
  have hmemory := hr fs hfs { c with source := .ofBytes .memory (bs ++ rest) } bs rest hbs
    ⟨rfl, hc.frames, hc.room, hc.policy⟩
  obtain rfl := hmemory.of_ok hid
  exact hr fs hfs c bs rest hbs hc

end MsgPack.Cursor
