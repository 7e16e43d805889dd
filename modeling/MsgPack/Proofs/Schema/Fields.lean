import MsgPack.Proofs.Cursor.InPlace
import MsgPack.Proofs.Schema.Relocating

/-!
Structs are read by the names of their fields. Which entries a map has for the
fields decides what becomes of them, in whatever order the entries come and
whatever else stands between them. An array of the same encodings in the order
of the fields is read to the same object.
-/

namespace MsgPack

open Cursor (Step Setting)
open Grammar (TextHeader ArrayHeader MapHeader Derives)

/-- An entry of a map under a name, with the bytes that spell it. -/
structure NamedEntry where
  header : Bytes
  name : Bytes
  value : Bytes

namespace NamedEntry

def bytes (e : NamedEntry) : Bytes := e.header ++ e.name ++ e.value

/-- Whether the key is a text. -/
def Keyed (e : NamedEntry) : Prop := TextHeader e.header e.name.length ∧ Utf8.isValid e.name

end NamedEntry

namespace Row

variable {st : Setting} {levels : Nat} {e : NamedEntry} {es : List NamedEntry}

/-- From `x` to `y` each field becomes what is restored over it from the entries
of its name. Fields that have none stay as they are. -/
def Takes (st : Setting) (levels : Nat) (es : List NamedEntry) : (r : Row) → r.Val → r.Val → Prop
  | .nil, _, _ => True
  | .cons name s rest, (x, xs), (y, ys) =>
    (∀ e ∈ es, e.name = name → st.Restores (s.restore x) levels e.value y) ∧
      (name ∉ es.map NamedEntry.name → y = x) ∧ rest.Takes st levels es xs ys

/-- The entries have texts for keys. Some stand for fields, each field once, and
take `x` to `y`; the others hold values, nested no deeper than `levels`. -/
structure Assigns (st : Setting) (levels : Nat) (es : List NamedEntry) (r : Row) (x y : r.Val) :
    Prop where
  keyed : ∀ e ∈ es, e.Keyed
  once : es.Pairwise fun e e' => e.name ∈ r.names → e.name ≠ e'.name
  extra : ∀ e ∈ es, e.name ∉ r.names → ∃ v, Derives levels e.value v
  takes : r.Takes st levels es x y

theorem restoreField?_of_other {r : Row} {x : r.Val} {name : Bytes} (h : name ∉ r.names) :
    r.restoreField? x name = none := by
  cases r with
  | nil => rfl
  | cons own s rest =>
      obtain ⟨hown, hrest⟩ := not_or.mp (mt List.mem_cons.mpr h)
      obtain ⟨x, xs⟩ := x
      rw [restoreField?, if_neg (Ne.symm hown), restoreField?_of_other hrest]
      rfl

namespace Takes

/-- Without any entries all stays as it is. -/
theorem eq_of_nil {r : Row} {x y : r.Val} (h : r.Takes st levels [] x y) : y = x := by
  cases r with
  | nil => rfl
  | cons name s rest =>
      obtain ⟨-, habsent, hrest⟩ := h
      exact Prod.ext (habsent List.not_mem_nil) hrest.eq_of_nil

/-- An entry that names no field makes no difference. -/
theorem of_other {r : Row} {x y : r.Val} (hother : e.name ∉ r.names)
    (h : r.Takes st levels (e :: es) x y) : r.Takes st levels es x y := by
  cases r with
  | nil => trivial
  | cons own s rest =>
      obtain ⟨hown, hrest⟩ := not_or.mp (mt List.mem_cons.mpr hother)
      obtain ⟨hgiven, habsent, htakes⟩ := h
      refine ⟨fun e' he' => hgiven e' (List.mem_cons_of_mem _ he'), fun hnone => ?_,
        htakes.of_other hrest⟩
      exact habsent (List.not_mem_cons_of_ne_of_not_mem (Ne.symm hown) hnone)

/-- An entry that names a field is restored over it, and the other entries are
then taken from there. -/
theorem step {r : Row} {x y : r.Val} (hnames : r.names.Nodup) (hfield : e.name ∈ r.names)
    (honce : e.name ∉ es.map NamedEntry.name) (h : r.Takes st levels (e :: es) x y) :
    ∃ field x', r.restoreField? x e.name = some field ∧
      st.Restores field levels e.value x' ∧ r.Takes st levels es x' y := by
  cases r with
  | nil => cases hfield
  | cons own s rest =>
      obtain ⟨x, xs⟩ := x
      obtain ⟨y, ys⟩ := y
      obtain ⟨hother, hrest⟩ := List.nodup_cons.mp hnames
      obtain ⟨hgiven, habsent, htakes⟩ := h
      by_cases hown : own = e.name
      · subst hown
        refine ⟨_, (y, xs), if_pos rfl, ?_, fun e' he' hname => ?_, fun _ => rfl,
          htakes.of_other hother⟩
        · exact (hgiven e List.mem_cons_self rfl).map (·, xs)
        · exact absurd (hname ▸ List.mem_map_of_mem he') honce
      · have hmem : e.name ∈ rest.names :=
          (List.mem_cons.mp hfield).resolve_left (Ne.symm hown)
        obtain ⟨field, xs', hsome, hrestores, htakes⟩ := htakes.step hrest hmem honce
        refine ⟨_, (x, xs'), ?_, hrestores.map (x, ·), fun e' he' =>
          hgiven e' (List.mem_cons_of_mem _ he'), fun hnone => ?_, htakes⟩
        · rw [restoreField?, if_neg hown, hsome]
          rfl
        · exact habsent (List.not_mem_cons_of_ne_of_not_mem hown hnone)

end Takes

/-! ### Entries -/

/-- The entries are read one after the other, in the order of the input. -/
theorem Assigns.reads {r : Row} {x y : r.Val} (hnames : r.names.Nodup)
    (h : r.Assigns st levels es x y) (key : Nat) (outer : List Frame) :
    st.Reads (restoreFields r.restoreField? es.length x)
      (.opened .map key (2 * es.length) :: outer) (.opened .map key 0 :: outer) levels
      (es.flatMap NamedEntry.bytes) y := by
  induction es generalizing x with
  | nil =>
      obtain rfl := h.takes.eq_of_nil
      exact .pure _
  | cons e es ih =>
      obtain ⟨hkeyed, hkeys⟩ := List.forall_mem_cons.mp h.keyed
      obtain ⟨hfirst, honce⟩ := List.pairwise_cons.mp h.once
      obtain ⟨hextra, hextras⟩ := List.forall_mem_cons.mp h.extra
      have hothers : ∀ x', r.Takes st levels es x' y → r.Assigns st levels es x' y :=
        fun _ htakes => ⟨hkeys, honce, hextras, htakes⟩
      have hkey : st.Element (Cursor.text .owned) levels (e.header ++ e.name) e.name :=
        .text hkeyed.1 hkeyed.2
      rw [List.length_cons, restoreFields, List.flatMap_cons, NamedEntry.bytes, List.append_assoc]
      refine .skipTo (.announceKey key es.length) ?_ (Nat.le_refl _)
      refine (hkey.asKey key es.length).bind ?_ (Nat.le_refl _)
      by_cases hfield : e.name ∈ r.names
      · have hnone : e.name ∉ es.map NamedEntry.name := fun hmem => by
          obtain ⟨e', he', hname⟩ := List.mem_map.mp hmem
          exact hfirst e' he' hfield hname.symm
        obtain ⟨field, x', hsome, hrestores, htakes⟩ := h.takes.step hnames hfield hnone
        -- what is restored from the encoding alone is restored from it here
        have helement := Setting.Element.of_restores (fun _ => r.portable_restoreField hsome)
          hrestores
        rw [hsome]
        exact (helement.asValue key es.length).bind (ih (hothers x' htakes)) (Nat.le_refl _)
      · obtain ⟨v, hv⟩ := hextra hfield
        obtain ⟨n, hbytes, hn, hheight⟩ := Node.of_derives hv
        rw [restoreField?_of_other hfield, ← hbytes]
        exact (Setting.Reads.skipValue hn hheight key es.length).bind
          (ih (hothers x (h.takes.of_other hfield))) (Nat.le_refl _)

/-! ### Positions -/

/-- The encodings that stand for all fields, in the order of the fields. -/
def InOrder (r : Row) (es : List NamedEntry) (values : List Bytes) : Prop :=
  List.Forall₂ (fun name value => ∃ e ∈ es, e.name = name ∧ e.value = value) r.names values

theorem Takes.reads {r : Row} {x y : r.Val} {values : List Bytes}
    (h : r.Takes st levels es x y) (hvalues : r.InOrder es values) (key : Nat)
    (outer : List Frame) :
    st.Reads (r.restore x) (.opened .array key r.length :: outer) (.opened .array key 0 :: outer)
      levels values.flatten y := by
  cases r with
  | nil =>
      cases hvalues
      exact .pure _
  | cons name s rest =>
      obtain ⟨x, xs⟩ := x
      obtain ⟨y, ys⟩ := y
      obtain ⟨hgiven, -, htakes⟩ := h
      cases hvalues with
      | cons hvalue hvalues =>
          obtain ⟨e, he, hname, rfl⟩ := hvalue
          have helement := Setting.Element.of_restores (fun _ => s.portable_restore x)
            (hgiven e he hname)
          exact (helement.inArray key rest.length).bind
            ((htakes.reads hvalues key outer).map (y, ·) (Nat.le_refl _)) (Nat.le_refl _)

end Row

/-! ### Structs -/

namespace Schema

variable {st : Setting} {levels : Nat} {r : Row} {es : List NamedEntry} {x y : r.Val}

theorem element_struct_of_entries {header : Bytes} (hheader : MapHeader header es.length)
    (hnames : r.names.Nodup) (h : r.Assigns st levels es x y) :
    st.Element ((Schema.struct r).restore x) (levels + 1)
      (header ++ es.flatMap NamedEntry.bytes) y := by
  refine .typeNext ((begins_map hheader).append _) ?_
  refine .scope ⟨es.length, hheader, rfl⟩ fun key outer => ?_
  refine .skipTo (.elemLeft .map key (2 * es.length)) ?_ (Nat.le_refl _)
  rw [Nat.mul_div_cancel_left _ Nat.two_pos]
  exact (h.reads hnames key outer).closing

theorem element_struct_of_values {header : Bytes} {values : List Bytes}
    (hheader : ArrayHeader header r.length) (h : r.Takes st levels es x y)
    (hvalues : r.InOrder es values) :
    st.Element ((Schema.struct r).restore x) (levels + 1) (header ++ values.flatten) y := by
  have harity : (checkArity r.length r.length : Step Unit) = pure () := if_pos rfl
  refine .typeNext ((begins_array hheader).append _) ?_
  refine .scope hheader fun key outer => ?_
  refine .skipTo (.elemLeft .array key r.length) ?_ (Nat.le_refl _)
  rw [harity, pure_bind]
  exact (h.reads hvalues key outer).closing

/-- An array of another length is left as soon as its header has been read. -/
theorem restore_struct_of_arity {header rest : Bytes} {n : Nat} {fs : List Frame} {c : Cursor}
    (x : r.Val) (hheader : ArrayHeader header n) (hn : n ≠ r.length) (hfs : Cursor.Readable fs)
    (hc : st.Ready c fs (levels + 1) (header ++ rest)) :
    (Schema.struct r).restore x c = .error (.invalidData (.arity r.length n))
      (c.moved header.length (.opened .array (c.lastId + 1) n :: fs.modifyHead Frame.stepped)
        (c.lastId + 1)) := by
  have hroom := hc.room
  have harity : (checkArity r.length n : Step Unit) = throw _ := if_neg hn
  have hopening : Container.array.Opening header n := hheader
  have hbegin := Cursor.beginScope_of_room hopening (hc.frames ▸ hfs) hc.left
    (by rw [hc.frames]; omega)
  refine (bind_of_ok (Cursor.typeNext_of_begins (begins_array hheader) hc.left)).trans ?_
  refine (bind_of_ok hbegin).trans ((bind_of_ok (Cursor.elemLeft_of_frames rfl)).trans ?_)
  rw [hc.frames]
  exact bind_of_error (congrFun harity _)

/-- Reading a struct depends on which field has which value, and on nothing else.
Let entries give values to fields with different names, each of them once, and
let there be others among them, under valid names that no field has, with
whatever values within the levels that are left inside. If the encodings that
are given restore to the fields of `y` and the fields that are given none are as
they were, then the map of the entries, in the order that they have, is read
to `y`, in any place, with the map consumed and nothing else. So is the array of
the encodings in the order of the fields, if all are given. An array of another
length is refused, with none of its elements read. -/
theorem restore_fields_by_name (hnames : r.names.Nodup) (h : r.Assigns st levels es x y) :
    (∀ header, MapHeader header es.length →
      st.Element ((Schema.struct r).restore x) (levels + 1)
        (header ++ es.flatMap NamedEntry.bytes) y) ∧
    (∀ header values, ArrayHeader header r.length → r.InOrder es values →
      st.Element ((Schema.struct r).restore x) (levels + 1) (header ++ values.flatten) y) ∧
    ∀ header n rest fs c, ArrayHeader header n → n ≠ r.length → Cursor.Readable fs →
      st.Ready c fs (levels + 1) (header ++ rest) →
      (Schema.struct r).restore x c = .error (.invalidData (.arity r.length n))
        (c.moved header.length (.opened .array (c.lastId + 1) n :: fs.modifyHead Frame.stepped)
          (c.lastId + 1)) :=
  ⟨fun _ hheader => element_struct_of_entries hheader hnames h,
    fun _ _ hheader hvalues => element_struct_of_values hheader h.takes hvalues,
    fun _ _ _ _ _ => restore_struct_of_arity x⟩

/-- A number and a text. -/
def pin : Row := .cons [0x78] (.intZero .u8) (.cons [0x79] (.text .owned []) .nil)

/-- The text, an array under a name that no field has, and the number. -/
def pinEntries : List NamedEntry :=
  [⟨[0xa1], [0x79], [0xa1, 0x61]⟩, ⟨[0xa1], [0x7a], [0x91, 0xc0]⟩, ⟨[0xd9, 1], [0x78], [7]⟩]

theorem assigns_pin : pin.Assigns ⟨.widening, .memory⟩ 1 pinEntries pin.fresh
    (IntType.u8.wrap 7, [0x61], ()) := by
  refine ⟨?_, by decide, ?_, ?_, fun h => absurd (by decide) h, ?_, fun h => absurd (by decide) h,
    trivial⟩
  all_goals simp only [pinEntries, List.forall_mem_cons]
  · exact ⟨⟨.fixed (by decide), rfl⟩, ⟨.fixed (by decide), rfl⟩,
      ⟨.sized (by decide : (0xd9, 1) ∈ Grammar.strTags) rfl, rfl⟩, List.forall_mem_nil _⟩
  · exact ⟨fun h => absurd (by decide) h,
      fun _ => ⟨_, .array (.fixed (by decide)) (.cons .nil .nil)⟩, fun h => absurd (by decide) h,
      List.forall_mem_nil _⟩
  · exact ⟨fun h => absurd h (by decide), fun h => absurd h (by decide), fun _ => ⟨_, rfl, rfl⟩,
      List.forall_mem_nil _⟩
  · exact ⟨fun _ => ⟨_, rfl, rfl⟩, fun h => absurd h (by decide), fun h => absurd h (by decide),
      List.forall_mem_nil _⟩

/-- A pin from a map with its fields in reverse, and from an array. -/
theorem restore_fields_by_name_pin :
    let st : Setting := ⟨.widening, .memory⟩
    let y : pin.Val := (IntType.u8.wrap 7, [0x61], ())
    pin.names.Nodup ∧ pin.Assigns st 1 pinEntries pin.fresh y ∧
      st.Restores ((Schema.struct pin).restore pin.fresh) 2
        [0x83, 0xa1, 0x79, 0xa1, 0x61, 0xa1, 0x7a, 0x91, 0xc0, 0xd9, 1, 0x78, 7] y ∧
      st.Restores ((Schema.struct pin).restore pin.fresh) 2 [0x92, 7, 0xa1, 0x61] y := by
  intro st y
  have hnames : pin.names.Nodup := by decide
  obtain ⟨hmap, harray, -⟩ := restore_fields_by_name hnames assigns_pin
  have hvalues : pin.InOrder pinEntries [[7], [0xa1, 0x61]] :=
    .cons ⟨_, .tail _ (.tail _ (.head _)), rfl, rfl⟩ (.cons ⟨_, .head _, rfl, rfl⟩ .nil)
  exact ⟨hnames, assigns_pin, (hmap [0x83] (.fixed (by decide))).restores,
    (harray [0x92] _ (.fixed (by decide)) hvalues).restores⟩

end Schema

end MsgPack
