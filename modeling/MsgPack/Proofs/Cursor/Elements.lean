import MsgPack.Proofs.Cursor.Reads
import MsgPack.Proofs.Wire.Finding
import MsgPack.Proofs.Wire.Fitting

/-!
The elements that a cursor knows: texts, binaries and extensions lent or copied,
numbers as its policy has them, arrays and maps of elements, and values, which
are read from all that derives them.
-/

namespace MsgPack

open Grammar (Numeral TextHeader BinaryHeader ExtensionHeader ArrayHeader MapHeader Derives)

/-! ### Content and numbers -/

section Leaves

variable {bs header content : Bytes}

theorem Get.Lends.finds_take {g : Get Payload} {L : Language Bytes} (h : Get.Lends g L)
    (hc : L bs content) (storage : Storage) :
    Get.Finds (do storage.take (← g)) bs content :=
  h.findsOn_take hc (.inl rfl)

theorem Get.finds_extension (storage : Storage) {type : Int8}
    (hheader : ExtensionHeader header content.length) :
    Get.Finds (do let (type, p) ← Get.extension; return (⟨type, ← storage.take p⟩ : Extension))
      (header ++ type.toUInt8 :: content) ⟨type, content⟩ := by
  have h : Get.FindsOn .memory _ (header ++ [type.toUInt8] ++ content) _ :=
    Get.findsOn_extension (.inl rfl : SourceKind.Serves .memory storage) ⟨header, hheader, rfl⟩
  rwa [List.append_assoc] at h

theorem Get.marker_of_begins {e : EntityType} (h : Begins bs e) {s : Source} {rest : Bytes}
    (hl : s.left = bs ++ rest) :
    ∃ m, Get.marker s = .ok m s ∧ m.code.entity? = some e := by
  obtain ⟨b, tail, rfl, he⟩ := h
  exact ⟨_, Get.marker_cons hl, he⟩

/-- A number is found by a reader that takes numbers of its kind and has a
place for its value. -/
theorem Get.finds_fitting {α : Type} {P : Option EntityType → Prop} [DecidablePred P]
    {target? : Number → Option α} {expected : Expected} {n : Number} {a : α} (h : Numeral bs n)
    (hkind : P (some n.entity)) (hfits : target? n = some a) :
    Get.Finds (Get.fitting P target? expected) bs a :=
  Get.accepts_fitting.finds ⟨n, h, hkind, hfits⟩

/-- Integers are found by every policy but the exact one. -/
theorem DecodePolicy.finds_int {policy : DecodePolicy} (hpolicy : policy ≠ .exact) {t : IntType}
    {i : t.Value} (h : Numeral bs (.ofInt i)) : Get.Finds (policy.int t) bs i := by
  have hfits : t.ofInt? i.toWire.val = some i := dif_pos i.property
  cases policy with
  | exact => exact absurd rfl hpolicy
  | widening => exact Get.finds_fitting (P := (· = some .integer)) h rfl hfits
  | lenient => exact Get.finds_fitting (P := (Option.any EntityType.isNumber ·)) h rfl hfits

/-- Floats are found as doubles that the target holds. -/
theorem DecodePolicy.finds_float {policy : DecodePolicy} (hpolicy : policy ≠ .exact)
    {p : Precision} {x : Double} {y : FloatBits p} (h : Numeral bs (.float x))
    (hfits : Number.toFloat? p (.float x) = some y) : Get.Finds (policy.float p) bs y := by
  cases policy with
  | exact => exact absurd rfl hpolicy
  | widening => exact Get.finds_fitting (P := (· = some .floatingPoint)) h rfl hfits
  | lenient => exact Get.finds_fitting (P := (Option.any EntityType.isNumber ·)) h rfl hfits

end Leaves

namespace Cursor

variable {α β : Type} {fs fs' outer : List Frame} {levels : Nat} {bs header content : Bytes}

theorem element_nil : Element (leaf Get.nil) levels [0xc0] () :=
  element_leaf (Get.accepts_nil.finds rfl)

theorem element_text (storage : Storage) (hheader : TextHeader header content.length)
    (hvalid : Utf8.isValid content) : Element (text storage) levels (header ++ content) content :=
  element_leaf (Get.lends_text.finds_take
    ⟨header, content, _, rfl, hheader, ⟨rfl, rfl⟩, hvalid⟩ storage)

theorem element_binary (storage : Storage) (hheader : BinaryHeader header content.length) :
    Element (binary storage) levels (header ++ content) content :=
  element_leaf (Get.lends_binary.finds_take ⟨header, content, _, rfl, hheader, rfl, rfl⟩ storage)

theorem element_extension (storage : Storage) {type : Int8}
    (hheader : ExtensionHeader header content.length) :
    Element (extension storage) levels (header ++ type.toUInt8 :: content) ⟨type, content⟩ :=
  element_leaf (Get.finds_extension storage hheader)

/-- A look at what comes next leaves everything as it is. -/
theorem typeNext_of_begins {c : Cursor} {rest : Bytes} {e : EntityType} (he : Begins bs e)
    (hl : c.source.left = bs ++ rest) : typeNext c = .ok e c := by
  obtain ⟨m, hm, hentity⟩ := Get.marker_of_begins he hl
  exact typeNext_of_marker hm hentity

theorem Reads.typeNext {e : EntityType} {f : EntityType → Step α} {a : α} (he : Begins bs e)
    (hf : Reads (f e) fs fs' levels bs a) : Reads (typeNext >>= f) fs fs' levels bs a := by
  intro c rest hc
  obtain ⟨id, hid⟩ := hf _ _ hc
  exact ⟨id, (bind_of_ok (typeNext_of_begins he hc.left)).trans hid⟩

theorem Element.typeNext {e : EntityType} {f : EntityType → Step α} {a : α} (he : Begins bs e)
    (hf : Element (f e) levels bs a) : Element (typeNext >>= f) levels bs a :=
  fun _ hfs => .typeNext he (hf _ hfs)

/-! ### Arrays and maps -/

/-- A map with the key of an entry announced. -/
def announced (key n : Nat) : Frame :=
  { Frame.opened .map key (2 * (n + 1)) with keyPending := true }

theorem announced_atKey (key n : Nat) : (announced key n).atKey = true := by
  simp [announced, Frame.atKey, Frame.opened]

theorem atKey_odd (key n : Nat) : (Frame.opened .map key (2 * n + 1)).atKey = false := by
  simp [Frame.atKey, Frame.opened]

theorem announceKey_of_frames {c : Cursor} {key n : Nat}
    (h : c.frames = .opened .map key (2 * (n + 1)) :: outer) :
    announceKey c = .ok () { c with frames := announced key n :: outer } := by
  simp [announceKey, innermost, bind_apply, h, Frame.opened, modifyInnermost, announced]

theorem reads_announceKey (key n : Nat) :
    Reads announceKey (.opened .map key (2 * (n + 1)) :: outer) (announced key n :: outer) levels
      [] () := fun c _ hc =>
  ⟨c.lastId, announceKey_of_frames hc.frames⟩

theorem stepped_announced (key n : Nat) :
    (announced key n).stepped = .opened .map key (2 * n + 1) := by
  simp only [Frame.stepped, announced_atKey]
  rfl

theorem stepped_odd (key n : Nat) :
    (Frame.opened .map key (2 * n + 1)).stepped = .opened .map key (2 * n) := by
  simp only [Frame.stepped, atKey_odd]
  rfl

theorem readable_announced (key n : Nat) (outer : List Frame) :
    Readable (announced key n :: outer) :=
  ⟨Nat.succ_ne_zero _, fun _ => rfl⟩

theorem readable_odd (key n : Nat) (outer : List Frame) :
    Readable (.opened .map key (2 * n + 1) :: outer) :=
  ⟨Nat.succ_ne_zero _, fun hkey => absurd hkey (by rw [atKey_odd]; exact Bool.false_ne_true)⟩

theorem readable_array (key n : Nat) (outer : List Frame) :
    Readable (.opened .array key (n + 1) :: outer) :=
  ⟨Nat.succ_ne_zero n, fun hkey => absurd hkey (by simp [Frame.atKey, Frame.opened])⟩

theorem Element.inArray {step : Step α} {a : α} (h : Element step levels bs a) (key n : Nat) :
    Reads step (.opened .array key (n + 1) :: outer) (.opened .array key n :: outer) levels bs a :=
  h _ (readable_array key n outer)

theorem Element.asKey {step : Step α} {a : α} (h : Element step levels bs a) (key n : Nat) :
    Reads step (announced key n :: outer) (.opened .map key (2 * n + 1) :: outer) levels bs a := by
  have hreads := h _ (readable_announced key n outer)
  rwa [List.modifyHead_cons, stepped_announced] at hreads

theorem Element.asValue {step : Step α} {a : α} (h : Element step levels bs a) (key n : Nat) :
    Reads step (.opened .map key (2 * n + 1) :: outer) (.opened .map key (2 * n) :: outer) levels
      bs a := by
  have hreads := h _ (readable_odd key n outer)
  rwa [List.modifyHead_cons, stepped_odd] at hreads

theorem reads_collect {step : Step α} {n : Nat} {xs : List α}
    (h : Language.repeated (Element step levels) n bs xs) (key : Nat) :
    Reads (collect step n) (.opened .array key n :: outer) (.opened .array key 0 :: outer) levels
      bs xs := by
  induction n generalizing bs xs with
  | zero =>
      obtain ⟨rfl, rfl⟩ := h
      exact .pure []
  | succ n ih =>
      obtain ⟨head, tail, x, rfl, hx, xs, hxs, rfl⟩ := h
      rw [collect_succ]
      exact (hx.inArray key n).bind ((ih hxs).map (x :: ·) (Nat.le_refl _)) (Nat.le_refl _)

theorem element_elements {step : Step α} {n : Nat} {xs : List α} (hheader : ArrayHeader header n)
    (h : Language.repeated (Element step levels) n bs xs) :
    Element (elements step) (levels + 1) (header ++ bs) xs := by
  refine element_array hheader fun key outer => ?_
  exact .skipTo (reads_elemLeft _ _) (reads_collect h key).closing (Nat.le_refl _)

/-- The key of an entry, announced, and its value. -/
theorem reads_entries {k : Step α} {v : Step β} {n : Nat} {es : List (α × β)}
    (h : (Language.pair (Element k levels) (Element v levels)).repeated n bs es) (key : Nat) :
    Reads (collect (do announceKey; return (← k, ← v)) n) (.opened .map key (2 * n) :: outer)
      (.opened .map key 0 :: outer) levels bs es := by
  induction n generalizing bs es with
  | zero =>
      obtain ⟨rfl, rfl⟩ := h
      exact .pure []
  | succ n ih =>
      obtain ⟨_, tail, _, rfl, ⟨kbs, vbs, x, rfl, hx, y, hy, rfl⟩, es, hes, rfl⟩ := h
      rw [collect_succ]
      -- an entry takes two of the elements that the scope has left
      have hentry : Reads (do announceKey; return (← k, ← v))
          (.opened .map key (2 * (n + 1)) :: outer) (.opened .map key (2 * n) :: outer) levels
          (kbs ++ vbs) (x, y) := by
        refine .skipTo (reads_announceKey key n) ?_ (Nat.le_refl _)
        exact (hx.asKey key n).bind ((hy.asValue key n).map (x, ·) (Nat.le_refl _)) (Nat.le_refl _)
      exact hentry.bind ((ih hes).map ((x, y) :: ·) (Nat.le_refl _)) (Nat.le_refl _)

theorem element_entries {k : Step α} {v : Step β} {n : Nat} {es : List (α × β)}
    (hheader : MapHeader header n)
    (h : (Language.pair (Element k levels) (Element v levels)).repeated n bs es) :
    Element (entries k v) (levels + 1) (header ++ bs) es := by
  refine element_map hheader fun key outer => ?_
  have htotal : (Frame.opened .map key (2 * n)).remaining / 2 = n :=
    Nat.mul_div_cancel_left n Nat.two_pos
  refine .skipTo (reads_elemLeft _ _) ?_ (Nat.le_refl _)
  rw [htotal]
  exact (reads_entries h key).closing

/-! ### Values -/

theorem element_valueWith {storage : Storage} {inside : Step OwnedValue} {v : OwnedValue}
    (h : MsgPack.announced (insideOf levels) bs v)
    (hinside : ∀ depth, levels = depth + 1 → ∀ bs v, Derives depth bs v →
      Element inside depth bs v) : Element (valueWith storage inside) levels bs v := by
  obtain ⟨b, rest, rfl, e, he, hform⟩ := h
  refine .typeNext ⟨b, rest, rfl, he⟩ ?_
  cases e with
  | null =>
      obtain ⟨hnil, rfl⟩ := hform
      rw [hnil]
      exact element_nil.map fun _ => Value.nil
  | boolean =>
      obtain ⟨x, hx, rfl⟩ := hform
      exact (element_leaf (Get.accepts_bool.finds hx)).map Value.bool
  | integer =>
      obtain ⟨n, hn, rfl⟩ := hform
      exact (element_leaf (Get.accepts_anyNumber.finds hn)).map Value.number
  | floatingPoint =>
      obtain ⟨n, hn, rfl⟩ := hform
      exact (element_leaf (Get.accepts_anyNumber.finds hn)).map Value.number
  | string =>
      obtain ⟨c, hc, rfl⟩ := hform
      exact (element_leaf (Get.lends_text.finds_take hc storage)).map Value.string
  | binary =>
      obtain ⟨c, hc, rfl⟩ := hform
      exact (element_leaf (Get.lends_binary.finds_take hc storage)).map Value.binary
  | extension =>
      obtain ⟨_, ⟨_, content, ⟨type, n⟩, heq, ⟨header, hheader, rfl⟩, _, ⟨rfl, rfl⟩, rfl⟩,
        rfl⟩ := hform
      rw [heq, List.append_assoc, List.singleton_append]
      exact (element_extension storage hheader).map fun e => Value.extension e.type e.data
  | array =>
      cases levels with
      | zero => exact hform.elim
      | succ depth =>
          obtain ⟨vs, ⟨header, body, n, heq, hheader, hvs⟩, rfl⟩ := hform
          rw [heq]
          have helems := Language.repeated_mono (hinside depth rfl) hvs
          exact (element_elements hheader helems).map Value.array
  | map =>
      cases levels with
      | zero => exact hform.elim
      | succ depth =>
          obtain ⟨es, ⟨header, body, n, heq, hheader, hes⟩, rfl⟩ := hform
          rw [heq]
          have hentries := Language.repeated_mono
            (fun _ _ => Language.pair_mono (hinside depth rfl) (hinside depth rfl)) hes
          exact (element_entries hheader hentries).map Value.map

theorem element_valueWithin {storage : Storage} {v : OwnedValue} (h : Derives levels bs v) :
    Element (valueWithin storage levels) levels bs v := by
  induction levels generalizing bs v with
  | zero => exact element_valueWith (announced_of_derives h) fun depth hdepth => by cases hdepth
  | succ depth ih =>
      refine element_valueWith (announced_of_derives h) fun depth' hdepth bs v hv => ?_
      obtain rfl := Nat.succ.inj hdepth
      exact ih hv

/-- A value is read from whatever derives it within the levels that are left. -/
theorem element_value {storage : Storage} {v : OwnedValue}
    (h : ∀ depth, levels ≤ depth → Derives depth bs v) : Element (value storage) levels bs v := by
  intro fs hfs c rest hc
  have hroom := hc.room
  -- the step asks for all the levels that the cursor has left, not only for those it needs
  have hdeep : c.Ready fs (c.maxDepth - fs.length) bs rest :=
    { hc with room := by omega }
  have hvalue : Element (valueWithin storage (c.maxDepth - fs.length)) _ bs v :=
    element_valueWithin (h _ (by omega))
  obtain ⟨id, hid⟩ := hvalue fs hfs c rest hdeep
  refine ⟨id, ?_⟩
  rw [value, levelsLeft, ← hid, ← hc.frames]
  rfl

end Cursor

end MsgPack
