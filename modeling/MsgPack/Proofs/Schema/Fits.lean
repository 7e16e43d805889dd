import MsgPack.Proofs.Cursor.Elements
import MsgPack.Proofs.Schema.Tree
import MsgPack.Proofs.Timestamp

/-!
Trees that can be encoded and that readers have room for, the elements that a
cursor finds in their bytes, and the objects whose trees these are.
-/

namespace MsgPack

open Grammar (Numeral)
open Put (maxLength)

namespace Tree

/-- The lengths can be announced, the texts are valid, and containers nest at
most `levels` deep. -/
structure Fits (levels : Nat) (t : Tree) : Prop where
  short : t.Everywhere Short
  spelled : t.Everywhere Spelled
  height : t.height ≤ levels

instance (levels : Nat) (t : Tree) : Decidable (t.Fits levels) :=
  decidable_of_iff (t.Everywhere Short ∧ t.Everywhere Spelled ∧ t.height ≤ levels)
    ⟨fun h => ⟨h.1, h.2.1, h.2.2⟩, fun h => ⟨h.short, h.spelled, h.height⟩⟩

variable {levels : Nat} {policy : EncodePolicy}

theorem everywhereEntries_iff {P : Tree → Prop} {es : List (Tree × Tree)} :
    EverywhereEntries P es ↔ ∀ e ∈ es, e.1.Everywhere P ∧ e.2.Everywhere P := by
  induction es with
  | nil => simp [EverywhereEntries]
  | cons e es ih => rw [EverywhereEntries, ih, List.forall_mem_cons, and_assoc]

theorem heightEntries_le_iff {es : List (Tree × Tree)} :
    heightEntries es ≤ levels ↔ ∀ e ∈ es, e.1.height ≤ levels ∧ e.2.height ≤ levels := by
  induction es with
  | nil => simp [heightEntries]
  | cons e es ih =>
      rw [heightEntries, Nat.max_le, Nat.max_le, ih, List.forall_mem_cons, and_assoc]

theorem bytesEntries_eq (es : List (Tree × Tree)) :
    bytesEntries policy es = es.flatMap fun e => e.1.bytes policy ++ e.2.bytes policy := by
  induction es with
  | nil => rfl
  | cons e es ih => rw [bytesEntries, ih, List.flatMap_cons, List.append_assoc]

theorem Fits.elems {elems : List Tree} (h : Fits levels (array elems)) :
    Short (array elems) ∧ ∃ inner, levels = inner + 1 ∧ ∀ t ∈ elems, Fits inner t := by
  obtain ⟨inner, rfl⟩ := Nat.exists_eq_succ_of_ne_zero (Nat.ne_zero_of_lt h.height)
  have hshort := everywhereElems_iff.mp h.short.2
  have hspelled := everywhereElems_iff.mp h.spelled.2
  have hheight := heightElems_le_iff.mp (Nat.le_of_succ_le_succ h.height)
  exact ⟨h.short.1, inner, rfl, fun t ht => ⟨hshort t ht, hspelled t ht, hheight t ht⟩⟩

theorem Fits.entries {es : List (Tree × Tree)} (h : Fits levels (map es)) :
    Short (map es) ∧ ∃ inner, levels = inner + 1 ∧ ∀ e ∈ es, Fits inner e.1 ∧ Fits inner e.2 := by
  obtain ⟨inner, rfl⟩ := Nat.exists_eq_succ_of_ne_zero (Nat.ne_zero_of_lt h.height)
  have hshort := everywhereEntries_iff.mp h.short.2
  have hspelled := everywhereEntries_iff.mp h.spelled.2
  have hheight := heightEntries_le_iff.mp (Nat.le_of_succ_le_succ h.height)
  refine ⟨h.short.1, inner, rfl, fun e he => ⟨?_, ?_⟩⟩
  · exact ⟨(hshort e he).1, (hspelled e he).1, (hheight e he).1⟩
  · exact ⟨(hshort e he).2, (hspelled e he).2, (hheight e he).2⟩

theorem Fits.scalar {t : Tree} (hshort : t.Everywhere Short) (hspelled : t.Everywhere Spelled)
    (hheight : t.height = 0) : Fits levels t :=
  ⟨hshort, hspelled, hheight ▸ Nat.zero_le levels⟩

theorem fits_array {elems : List Tree} (hlen : elems.length ≤ maxLength)
    (h : ∀ t ∈ elems, Fits levels t) : Fits (levels + 1) (array elems) where
  short := ⟨hlen, everywhereElems_iff.mpr fun t ht => (h t ht).short⟩
  spelled := ⟨trivial, everywhereElems_iff.mpr fun t ht => (h t ht).spelled⟩
  height := Nat.succ_le_succ (heightElems_le_iff.mpr fun t ht => (h t ht).height)

theorem fits_map {es : List (Tree × Tree)} (hlen : es.length ≤ maxLength)
    (h : ∀ e ∈ es, Fits levels e.1 ∧ Fits levels e.2) : Fits (levels + 1) (map es) where
  short := ⟨hlen, everywhereEntries_iff.mpr fun e he => ⟨(h e he).1.short, (h e he).2.short⟩⟩
  spelled := ⟨trivial,
    everywhereEntries_iff.mpr fun e he => ⟨(h e he).1.spelled, (h e he).2.spelled⟩⟩
  height := Nat.succ_le_succ
    (heightEntries_le_iff.mpr fun e he => ⟨(h e he).1.height, (h e he).2.height⟩)

theorem fits_text {bs : Bytes} (h : Legible bs) : Fits levels (text bs) := .scalar h.1 h.2 rfl

/-- A container has room if each of its parts has, one level further down. -/
theorem fits_array_of_height {elems : List Tree} (hlen : elems.length ≤ maxLength)
    (hheight : (array elems).height ≤ levels)
    (h : ∀ t ∈ elems, ∀ {inner : Nat}, t.height ≤ inner → Fits inner t) :
    Fits levels (array elems) := by
  obtain ⟨inner, rfl⟩ := Nat.exists_eq_succ_of_ne_zero (Nat.ne_zero_of_lt hheight)
  have hparts := heightElems_le_iff.mp (Nat.le_of_succ_le_succ hheight)
  exact fits_array hlen fun t ht => h t ht (hparts t ht)

theorem fits_map_of_height {es : List (Tree × Tree)} (hlen : es.length ≤ maxLength)
    (hheight : (map es).height ≤ levels)
    (h : ∀ e ∈ es, ∀ {inner : Nat}, e.1.height ≤ inner → e.2.height ≤ inner →
      Fits inner e.1 ∧ Fits inner e.2) : Fits levels (map es) := by
  obtain ⟨inner, rfl⟩ := Nat.exists_eq_succ_of_ne_zero (Nat.ne_zero_of_lt hheight)
  have hparts := heightEntries_le_iff.mp (Nat.le_of_succ_le_succ hheight)
  exact fits_map hlen fun e he => h e he (hparts e he).1 (hparts e he).2

theorem Fits.derives {t : Tree} (h : Fits levels t) :
    Grammar.Derives levels (t.bytes policy) (t.value policy) :=
  Tree.derives h.short h.spelled h.height

/-- No tree but that of nil begins as nil does. -/
theorem Fits.begins {t : Tree} (h : Fits levels t) (ht : t ≠ nil) :
    ∃ e, e ≠ .null ∧ Begins (t.bytes policy) e := by
  have hderives : Grammar.Derives levels (t.bytes policy) (t.value policy) := h.derives
  obtain ⟨b, rest, hbytes, e, he, hform⟩ := announced_of_derives hderives
  refine ⟨e, ?_, b, rest, hbytes, he⟩
  rintro rfl
  have hvalue : t.value policy = .nil := hform.2
  cases t with
  | nil => exact ht rfl
  | _ => cases hvalue

end Tree

section Leaves

variable {levels : Nat} {policy : EncodePolicy}

theorem EncodePolicy.numberOf_eq (hpolicy : policy ≠ .aggressive) (p : Precision)
    (x : FloatBits p) : policy.numberOf p x = .ofFloat p x := by
  cases policy with
  | exact => rfl
  | lossless => rfl
  | aggressive => exact absurd rfl hpolicy

theorem Number.ofInt_wrap (i : WireInt) :
    Number.ofInt (IntType.wrap (if i.val < 0 then .i64 else .u64) i.val) = .int i := by
  have hcontains : IntType.Contains (if i.val < 0 then .i64 else .u64) i.val := by
    have := i.property
    split <;> simp only [IntType.Contains, IntType.min, IntType.max] <;> omega
  rw [IntType.wrap_of_contains hcontains]
  rfl

/-- Numbers keep their value and their kind. -/
theorem Number.numeral_tree (hpolicy : policy ≠ .aggressive) (n : Number) :
    Numeral (n.tree.bytes policy) n := by
  cases n with
  | int i =>
      have h : Numeral (Tree.bytes policy _) _ := Tree.bytes_int (if i.val < 0 then .i64 else .u64)
        (IntType.wrap _ i.val)
      rwa [Number.ofInt_wrap] at h
  | float x =>
      have h : Numeral (Tree.bytes policy _) _ := Tree.bytes_float .double x
      rwa [EncodePolicy.numberOf_eq hpolicy] at h

namespace Value

mutual

/-- A value is told as a tree of that value. -/
theorem value_tree (hpolicy : policy ≠ .aggressive) (v : OwnedValue) :
    v.tree.value policy = v := by
  cases v with
  | number n =>
      cases n with
      | int i => exact congrArg Value.number (Number.ofInt_wrap i)
      | float x => exact congrArg Value.number (EncodePolicy.numberOf_eq hpolicy .double x)
  | array elems => exact congrArg Value.array (value_elemTrees hpolicy elems)
  | map entries => exact congrArg Value.map (value_entryTrees hpolicy entries)
  | _ => rfl
termination_by structural v

theorem value_elemTrees (hpolicy : policy ≠ .aggressive) (vs : List OwnedValue) :
    Tree.valueElems policy (elemTrees vs) = vs := by
  cases vs with
  | nil => rfl
  | cons v vs =>
      rw [elemTrees, Tree.valueElems, value_tree hpolicy v, value_elemTrees hpolicy vs]
termination_by structural vs

theorem value_entryTrees (hpolicy : policy ≠ .aggressive) (es : List (OwnedValue × OwnedValue)) :
    Tree.valueEntries policy (entryTrees es) = es := by
  cases es with
  | nil => rfl
  | cons e es =>
      obtain ⟨k, v⟩ := e
      rw [entryTrees, Tree.valueEntries, value_tree hpolicy k, value_tree hpolicy v,
        value_entryTrees hpolicy es]
termination_by structural es

end

end Value

end Leaves

/-! ### Objects that fit -/

theorem Timestamp.length_toExtension_le {l : TimestampLayout} (t : Timestamp l) :
    t.toExtension.data.length ≤ maxLength := by
  rw [length_toExtension]
  cases l <;> decide

theorem legible_encode (cp : Nat) : Legible ((Utf8.encode? cp).getD []) := by
  cases h : Utf8.encode? cp with
  | none => decide
  | some bs =>
      have hlen : bs.length ≤ 4 := Utf8.length_of_encode h
      exact ⟨Nat.le_trans hlen (by decide), Utf8.isValid_of_encode h⟩

theorem Value.fits_number {levels : Nat} (n : Number) : n.tree.Fits levels := by
  cases n <;> exact .scalar trivial trivial rfl

/-- Entries in whatever order fit as those of a map. -/
theorem Schema.fits_map {k v : Schema} {es : List (k.Val × v.Val)} {levels : Nat}
    (hlen : es.length ≤ maxLength) (hheight : ((map k v).tree es).height ≤ levels)
    (h : ∀ e ∈ es, ∀ {inner : Nat}, (k.tree e.1).height ≤ inner → (v.tree e.2).height ≤ inner →
      (k.tree e.1).Fits inner ∧ (v.tree e.2).Fits inner) : ((map k v).tree es).Fits levels := by
  have hlen' : (es.map fun e => (k.tree e.1, v.tree e.2)).length = es.length :=
    List.length_map _
  exact Tree.fits_map_of_height (hlen' ▸ hlen) hheight (List.forall_mem_map.mpr h)

mutual

/-- Where names and object allow it, all that a tree takes to fit is room. -/
theorem Schema.fits_tree : (s : Schema) → s.WellNamed → {x : s.Val} → s.Storable x →
    {levels : Nat} → (s.tree x).height ≤ levels → (s.tree x).Fits levels
  | .number, _, n, _, _, _ => Value.fits_number n
  | .char, _, (c : UInt32), _, _, _ => Tree.fits_text (legible_encode c.toNat)
  | .text .., _, _, h, _, _ => Tree.fits_text h
  | .binary _, _, _, h, _, _ => .scalar h trivial rfl
  | .extension _, _, _, h, _, _ => .scalar h trivial rfl
  | .fixedExtension _, _, (_ : FixedExtension _), h, _, _ => .scalar h trivial rfl
  | .timestamp _, _, (t : Timestamp _), _, _, _ => .scalar t.length_toExtension_le trivial rfl
  | .instant _, _, (t : Instant _), _, _, _ =>
      .scalar (Timestamp.smallest t.toNanos).2.length_toExtension_le trivial rfl
  | .value _, _, (_ : OwnedValue), h, _, hheight => ⟨h.1, h.2, hheight⟩
  | .list s, hs, (xs : List s.Val), h, _, hheight => by
      have hlen : (xs.map s.tree).length = xs.length := List.length_map _
      refine Tree.fits_array_of_height (hlen ▸ h.1) hheight ?_
      exact List.forall_mem_map.mpr fun x hx _ => s.fits_tree hs (h.2 x hx)
  | .map k v, hs, (_ : List (k.Val × v.Val)), h, _, hheight =>
      Schema.fits_map h.1 hheight fun e he _ hkey hval =>
        ⟨k.fits_tree hs.1 (h.2.2 e he).1 hkey, v.fits_tree hs.2 (h.2.2 e he).2 hval⟩
  | .option _, _, none, _, _, _ => .scalar trivial trivial rfl
  | .option s, hs, some _, h, _, hheight => s.fits_tree hs h.2 hheight
  | .tuple r, hs, x, h, _, hheight =>
      Tree.fits_array_of_height (r.length_trees x ▸ h.1) hheight (r.fits_trees hs h.2)
  | .struct r, hs, x, h, _, hheight =>
      Tree.fits_map_of_height (r.length_fieldTrees x ▸ h.1) hheight
        (r.fits_fieldTrees hs.1.legible hs.2 h.2)
  | .variant a, hs, _, h, _, hheight => a.fits_tree hs.1.legible hs.2 h hheight
  | .nil, _, _, _, _, _ | .bool, _, _, _, _, _ | .int .., _, _, _, _, _
  | .carried _, _, _, _, _, _ | .float _, _, _, _, _, _ => .scalar trivial trivial rfl

theorem Row.fits_trees : (r : Row) → r.WellNamed → {x : r.Val} → r.Storable x →
    ∀ t ∈ r.trees x, ∀ {levels : Nat}, t.height ≤ levels → t.Fits levels
  | .nil, _, _, _ => fun _ ht => nomatch ht
  | .cons _ s rest, hr, (_, _), h =>
      List.forall_mem_cons.mpr ⟨s.fits_tree hr.1 h.1, rest.fits_trees hr.2 h.2⟩

theorem Row.fits_fieldTrees : (r : Row) → (∀ name ∈ r.names, Legible name) → r.WellNamed →
    {x : r.Val} → r.Storable x → ∀ e ∈ r.fieldTrees x, ∀ {levels : Nat}, e.1.height ≤ levels →
    e.2.height ≤ levels → e.1.Fits levels ∧ e.2.Fits levels
  | .nil, _, _, _, _ => fun _ he => nomatch he
  | .cons _ s rest, hnames, hr, (_, _), h =>
      have ⟨hname, hnames⟩ := List.forall_mem_cons.mp hnames
      List.forall_mem_cons.mpr
        ⟨fun _ hval => ⟨Tree.fits_text hname, s.fits_tree hr.1 h.1 hval⟩,
          rest.fits_fieldTrees hnames hr.2 h.2⟩

theorem Alternatives.fits_tree : (a : Alternatives) → (∀ name ∈ a.names, Legible name) →
    a.WellNamed → {x : a.Val} → a.Storable x → {levels : Nat} → (a.tree x).height ≤ levels →
    (a.tree x).Fits levels
  | .last _ c, hnames, ha, _, h, _, hheight =>
      c.fits_tree (hnames _ List.mem_cons_self) ha h hheight
  | .cons _ c _, hnames, ha, .inl _, h, _, hheight =>
      c.fits_tree (hnames _ List.mem_cons_self) ha.1 h hheight
  | .cons _ _ rest, hnames, ha, .inr _, h, _, hheight =>
      rest.fits_tree (List.forall_mem_cons.mp hnames).2 ha.2 h hheight

theorem Content.fits_tree : (c : Content) → {name : Bytes} → Legible name → c.WellNamed →
    {x : c.Val} → c.Storable x → {levels : Nat} → (c.tree name x).height ≤ levels →
    (c.tree name x).Fits levels
  | .unit, _, hname, _, _, _, _, _ => Tree.fits_text hname
  | .item s, _, hname, hs, _, h, _, hheight =>
      Tree.fits_map_of_height (show 1 ≤ maxLength by decide) hheight <|
        List.forall_mem_singleton.mpr fun _ hval => ⟨Tree.fits_text hname, s.fits_tree hs h hval⟩

end

end MsgPack
