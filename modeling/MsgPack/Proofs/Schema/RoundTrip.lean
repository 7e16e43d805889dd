import MsgPack.Archive
import MsgPack.Proofs.Schema.Same
import MsgPack.Proofs.Schema.Shapes
import MsgPack.Proofs.Schema.Sharing
import MsgPack.Proofs.Writer.WellFormed

/-!
Objects come back from their archives. Where an object was written a cursor
reads it again, whatever stood in the object that it reads into, and consumes
the bytes of the object and no more.
-/

namespace MsgPack

open Cursor (Step Element Reads)

section Restore

variable {policy : EncodePolicy}

/-- A float is read as the double that it widens to, and made to fit. -/
theorem element_float (hpolicy : policy ≠ .aggressive) {levels : Nat} {p : Precision}
    {x y : FloatBits p} {wide : Double} (hwide : Number.ofFloat p x = .float wide)
    (hfits : Number.toFloat? p (.float wide) = some y) :
    Element (do Cursor.leaf ((← get).policy.float p)) levels ((Tree.float p x).bytes policy) y := by
  have h : Grammar.Numeral (Tree.bytes policy _) _ := Tree.bytes_float p x
  rw [EncodePolicy.numberOf_eq hpolicy, hwide] at h
  exact Cursor.element_leaf_by fun reading hreading => DecodePolicy.finds_float hreading h hfits

theorem element_extension_tree (storage : Storage) {levels : Nat} {e : Extension}
    (h : (Tree.extension e).Fits levels) :
    Element (Cursor.extension storage) levels ((Tree.extension e).bytes policy) e := by
  obtain ⟨header, hheader, hbytes⟩ := Tree.bytes_extension h.short
  rw [hbytes]
  exact Cursor.element_extension storage hheader

/-- An option is there if what comes next is not nil. -/
theorem element_restoreOption {s : Schema} {levels : Nat} {bs : Bytes} {e : EntityType}
    {initial : Option s.Val} {x : s.Val} (hbegins : Begins bs e) (he : e ≠ .null)
    (h : Element (s.restore (initial.getD s.fresh)) levels bs x) :
    Element ((Schema.option s).restore initial) levels bs (some x) := by
  refine .typeNext hbegins ?_
  cases e with
  | null => exact absurd rfl he
  | _ => exact h.map some

/-- Entries are read as the map that is made of them, where keys and values are
read as what they are. -/
theorem element_restoreMap {k v : Schema} {levels : Nat} {es : List (k.Val × v.Val)}
    (initial : List (k.Val × v.Val)) (hfits : ((Schema.map k v).tree es).Fits levels)
    (hentries : ∀ e ∈ es, ∀ inner, (k.tree e.1).Fits inner → (v.tree e.2).Fits inner →
      Element (k.restore k.fresh) inner ((k.tree e.1).bytes policy) (k.reread e.1) ∧
      Element (v.restore v.fresh) inner ((v.tree e.2).bytes policy) (v.reread e.2)) :
    Element ((Schema.map k v).restore initial) levels (((Schema.map k v).tree es).bytes policy)
      ((Schema.map k v).reread (mapOfEntries k.compare es)) := by
  obtain ⟨hshort, inner, rfl, hfit⟩ := hfits.entries
  obtain ⟨header, hheader, hbytes⟩ := Tree.bytes_map hshort
  show Element (Cursor.entries _ _ >>= _) _
    (Tree.bytes policy (.map (es.map fun e => (k.tree e.1, v.tree e.2)))) _
  rw [hbytes, Tree.bytesEntries_eq, List.flatMap_map]
  rw [List.length_map] at hheader
  have hpairs : (Language.pair (Element (k.restore k.fresh) inner)
      (Element (v.restore v.fresh) inner)).repeated es.length
      (es.flatMap fun e => (k.tree e.1).bytes policy ++ (v.tree e.2).bytes policy)
      (es.map fun e => (k.reread e.1, v.reread e.2)) :=
    Language.repeated_map fun e he => by
      obtain ⟨hkey, hval⟩ := hfit _ (List.mem_map_of_mem he)
      obtain ⟨hkey, hval⟩ := hentries e he inner hkey hval
      exact ⟨_, _, _, rfl, hkey, _, hval, rfl⟩
  exact (Cursor.element_entries hheader hpairs).looked (congrArg pure (mapOfEntries_reread es))

mutual

theorem Schema.restores (hpolicy : policy ≠ .aggressive) : (s : Schema) → s.WellNamed →
    {x : s.Val} → (initial : s.Val) → s.Storable x → {levels : Nat} → (s.tree x).Fits levels →
    Element (s.restore initial) levels ((s.tree x).bytes policy) (s.reread x)
  | .nil, _, _, _, _, _, _ => Cursor.element_nil
  | .bool, _, b, _, _, _, _ => Cursor.element_leaf
      (Get.accepts_bool.finds (by cases b <;> first | exact .false | exact .true))
  | .int t _, _, i, _, _, _, _ => Cursor.element_leaf_by fun _ hreading =>
      DecodePolicy.finds_int hreading (Tree.bytes_int t i)
  | .carried _, _, _, _, _, _, _ => element_restoreCarried (Tree.bytes_int _ _)
  | .float .single, _, x, _, _, _, _ => element_float hpolicy rfl (Single.toFloat_widen x)
  | .float .double, _, _, _, _, _, _ => element_float hpolicy rfl rfl
  | .number, _, n, _, _, _, _ => Cursor.element_leaf
      (Get.accepts_anyNumber.finds (Number.numeral_tree hpolicy n))
  | .char, _, (c : UInt32), _, h, _, hfits => by
      obtain ⟨header, hheader, hbytes⟩ := Tree.bytes_text hfits.short
      show Element restoreChar _ (Tree.bytes policy (.text _)) c
      rw [hbytes]
      exact element_restoreChar hheader (Utf8.encode_of_isScalar h)
  | .text storage _, _, bs, _, _, _, hfits => by
      obtain ⟨header, hheader, hbytes⟩ := Tree.bytes_text hfits.short
      show Element (Cursor.text storage) _ (Tree.bytes policy (.text bs)) bs
      rw [hbytes]
      exact Cursor.element_text storage hheader hfits.spelled
  | .binary storage, _, bs, _, _, _, hfits => by
      obtain ⟨header, hheader, hbytes⟩ := Tree.bytes_binary hfits.short
      show Element (Cursor.binary storage) _ (Tree.bytes policy (.binary bs)) bs
      rw [hbytes]
      exact Cursor.element_binary storage hheader
  | .extension storage, _, e, _, _, _, hfits => element_extension_tree storage hfits
  | .fixedExtension capacity, _, (e : FixedExtension _), _, _, _, hfits =>
      (element_extension_tree .owned hfits).looked
        (congrArg Get.ofExcept (dif_pos e.fits : FixedExtension.ofExtension capacity e.ext = .ok e))
  | .timestamp l, _, (t : Timestamp _), _, _, _, hfits =>
      (element_extension_tree .owned hfits).looked
        (congrArg Get.ofExcept t.ofExtension_toExtension)
  | .instant u, _, (t : Instant _), _, h, _, hfits =>
      (element_extension_tree .owned hfits).looked
        (congrArg Get.ofExcept ((Timestamp.instantOfExtension_smallest t).trans (if_pos h)))
  | .value storage, _, (v : OwnedValue), _, _, levels, hfits => by
      -- a value may nest as deep as the cursor goes, and derives there what it derives lower down
      refine Cursor.element_value fun depth hdepth => ?_
      have h : Grammar.Derives depth (v.tree.bytes policy) (v.tree.value policy) :=
        Tree.derives hfits.short hfits.spelled (Nat.le_trans hfits.height hdepth)
      rwa [Value.value_tree hpolicy] at h
  | .list s, hs, (xs : List s.Val), _, h, levels, hfits => by
      obtain ⟨hshort, inner, rfl, helems⟩ := hfits.elems
      obtain ⟨header, hheader, hbytes⟩ := Tree.bytes_array hshort
      show Element (Cursor.elements _) _ (Tree.bytes policy (.array (xs.map s.tree))) _
      rw [hbytes, Tree.bytesElems_eq, List.flatMap_map]
      rw [List.length_map] at hheader
      refine Cursor.element_elements hheader (Language.repeated_map fun x hx => ?_)
      exact s.restores hpolicy hs s.fresh (h.2 x hx) (helems _ (List.mem_map_of_mem hx))
  | .map k v, hs, (es : List (k.Val × v.Val)), initial, h, _, hfits => by
      have hmap := element_restoreMap initial hfits fun e he inner hkey hval =>
        ⟨k.restores hpolicy hs.1 k.fresh (h.2.2 e he).1 hkey,
          v.restores hpolicy hs.2 v.fresh (h.2.2 e he).2 hval⟩
      -- the keys come in the order of the map, so that collecting them builds it again
      rwa [mapOfEntries_of_ascending h.2.1] at hmap
  | .option _, _, none, _, _, _, _ =>
      .typeNext ⟨_, [], rfl, rfl⟩ (Cursor.element_nil.map fun _ => none)
  | .option s, hs, some x, (initial : Option s.Val), h, _, hfits => by
      -- what is there is not told as nil, and so does not begin as nil does
      obtain ⟨e, he, hbegins⟩ := hfits.begins h.1
      exact element_restoreOption hbegins he (s.restores hpolicy hs _ h.2 hfits)
  | .tuple r, hr, x, initial, h, levels, hfits => by
      obtain ⟨hshort, inner, rfl, helems⟩ := hfits.elems
      obtain ⟨header, hheader, hbytes⟩ := Tree.bytes_array hshort
      replace hheader : Grammar.ArrayHeader header r.length := r.length_trees x ▸ hheader
      show Element (restoreTuple r.length (r.restore initial)) _
        (Tree.bytes policy (.array (r.trees x))) (r.reread x)
      rw [hbytes]
      exact element_restoreTuple hheader (r.restoresElems hpolicy hr initial h.2 helems)
  | .struct r, hr, x, initial, h, levels, hfits => by
      obtain ⟨hshort, inner, rfl, hentries⟩ := hfits.entries
      obtain ⟨header, hheader, hbytes⟩ := Tree.bytes_map hshort
      replace hheader : Grammar.MapHeader header r.length := r.length_fieldTrees x ▸ hheader
      -- a struct by itself is part of no larger object
      have hlookup : ∀ name ∈ r.names, ∀ v step, r.restoreField? v name = some step →
          r.restoreField? (id v) name = some do return id (← step) :=
        fun name _ v step hstep => hstep.trans (congrArg some (return_id step).symm)
      have hfields := r.restoresFields hpolicy hr.2 id hlookup initial hr.1.nodup h.2 hentries
      show Element (restoreStruct r.length (r.restore initial) r.restoreField? initial) _
        (Tree.bytes policy (.map (r.fieldTrees x))) (r.reread x)
      rw [hbytes]
      exact element_restoreStruct hheader hfields
  | .variant a, ha, x, _, h, _, hfits =>
      a.restores hpolicy ha.2 id
        (fun name _ _ step hstep => hstep.trans (congrArg some (return_id step).symm))
        ha.1.nodup h hfits

/-- The items of a tuple fill its scope. -/
theorem Row.restoresElems (hpolicy : policy ≠ .aggressive) : (r : Row) → r.WellNamed →
    {x : r.Val} → (initial : r.Val) → r.Storable x → {levels : Nat} →
    (∀ t ∈ r.trees x, t.Fits levels) →
    ∀ key outer, Reads (r.restore initial) (.opened .array key r.length :: outer)
      (.opened .array key 0 :: outer) levels (Tree.bytesElems policy (r.trees x)) (r.reread x)
  | .nil, _, _, _, _, _, _, _, _ => .pure ()
  | .cons _ s rest, hr, (x, xs), (initial, initials), h, _, hfits, key, _ => by
      obtain ⟨hfirst, hrest⟩ := List.forall_mem_cons.mp hfits
      have hitem := s.restores hpolicy hr.1 initial h.1 hfirst
      have hitems := rest.restoresElems hpolicy hr.2 initials h.2 hrest
      exact (hitem.inArray key rest.length).bind
        ((hitems key _).map (s.reread x, ·) (Nat.le_refl _)) (Nat.le_refl _)

/-- The fields of a struct fill its scope. The struct may be part of a larger
object, into which `put` puts it and in which its names lead to its fields. -/
theorem Row.restoresFields (hpolicy : policy ≠ .aggressive) : (r : Row) → r.WellNamed →
    {α : Type} → {field? : α → Bytes → Option (Step α)} → (put : r.Val → α) →
    (∀ name ∈ r.names, ∀ v step, r.restoreField? v name = some step →
      field? (put v) name = some do return put (← step)) →
    {x : r.Val} → (initial : r.Val) → r.names.Nodup → r.Storable x → {levels : Nat} →
    (∀ e ∈ r.fieldTrees x, e.1.Fits levels ∧ e.2.Fits levels) →
    ∀ key outer, Reads (restoreFields field? r.length (put initial))
      (.opened .map key (2 * r.length) :: outer) (.opened .map key 0 :: outer) levels
      (Tree.bytesEntries policy (r.fieldTrees x)) (put (r.reread x))
  | .nil, _, _, _, put, _, _, _, _, _, _, _, _, _ => .pure (put ())
  | .cons own s rest, hr, α, field?, put, hfield, (x, xs), (initial, initials), hnames, h, levels,
      hfits, key, outer => by
      obtain ⟨⟨hname, hval⟩, hrest⟩ := List.forall_mem_cons.mp hfits
      obtain ⟨hnew, hnames⟩ := List.nodup_cons.mp hnames
      obtain ⟨header, hheader, hbytes⟩ := Tree.bytes_text hname.short
      have hown := hfield own List.mem_cons_self (initial, initials) _ (if_pos rfl)
      have hitem := ((s.restores hpolicy hr.1 initial h.1 hval).map (·, initials)).map put
      -- the fields behind are put into the struct with the first one read
      have hlookup : ∀ name ∈ rest.names, ∀ v step, rest.restoreField? v name = some step →
          field? (put (s.reread x, v)) name = some do return put (s.reread x, ← step) := by
        intro name hmem v step hstep
        have hne : own ≠ name := fun heq => hnew (heq ▸ hmem)
        have hother := hfield name (List.mem_cons_of_mem _ hmem) (s.reread x, v)
          (do return (s.reread x, ← step)) ((if_neg hne).trans (by rw [hstep]; rfl))
        exact hother.trans (congrArg some (return_return step (s.reread x, ·) put))
      have hitems := rest.restoresFields hpolicy hr.2 (fun xs => put (s.reread x, xs)) hlookup
        initials hnames h.2 hrest key outer
      show Reads _ _ _ _ (Tree.bytes policy (.text own) ++ _) _
      rw [hbytes]
      exact reads_restoreFields_succ hheader hname.spelled hown hitem hitems

/-- The alternative that a union holds is found by its name. -/
theorem Alternatives.restores (hpolicy : policy ≠ .aggressive) : (a : Alternatives) →
    a.WellNamed → {α : Type} → {alternative? : Bytes → Bool → Option (Step α)} → (put : a.Val → α) →
    (∀ name ∈ a.names, ∀ hasPayload step, a.restore? name hasPayload = some step →
      alternative? name hasPayload = some do return put (← step)) →
    {x : a.Val} → a.names.Nodup → a.Storable x → {levels : Nat} → (a.tree x).Fits levels →
    Element (restoreVariant alternative?) levels ((a.tree x).bytes policy) (put (a.reread x))
  | .last own c, hc, _, _, put, halt, _, _, h, _, hfits =>
      c.restores hpolicy hc own put
        (fun hasPayload => halt own List.mem_cons_self hasPayload _ (if_pos rfl)) h hfits
  | .cons own c _, ha, _, _, put, halt, .inl _, _, h, _, hfits =>
      c.restores hpolicy ha.1 own (fun x => put (.inl x))
        (fun hasPayload => (halt own List.mem_cons_self hasPayload _ (if_pos rfl)).trans
          (congrArg some (return_return _ Sum.inl put))) h hfits
  | .cons own _ rest, ha, _, _, put, halt, .inr _, hnames, h, _, hfits =>
      rest.restores hpolicy ha.2 (fun x => put (.inr x))
        (fun name hmem hasPayload step hstep => by
          have hne : own ≠ name := fun heq => (List.nodup_cons.mp hnames).1 (heq ▸ hmem)
          have hother := halt name (List.mem_cons_of_mem _ hmem) hasPayload
            (do return .inr (← step)) ((if_neg hne).trans (by rw [hstep]; rfl))
          exact hother.trans (congrArg some (return_return step Sum.inr put)))
        (List.nodup_cons.mp hnames).2 h hfits

theorem Content.restores (hpolicy : policy ≠ .aggressive) : (c : Content) → c.WellNamed →
    (name : Bytes) → {α : Type} → {alternative? : Bytes → Bool → Option (Step α)} →
    (put : c.Val → α) →
    (∀ hasPayload, alternative? name hasPayload =
      some do return put (← c.restore name hasPayload)) →
    {x : c.Val} → c.Storable x → {levels : Nat} → (c.tree name x).Fits levels →
    Element (restoreVariant alternative?) levels ((c.tree name x).bytes policy) (put (c.reread x))
  | .unit, _, name, _, _, put, halt, _, _, _, hfits => by
      obtain ⟨header, hheader, hbytes⟩ := Tree.bytes_text hfits.short
      show Element _ _ (Tree.bytes policy (.text name)) _
      rw [hbytes]
      exact element_restoreVariant_name hheader hfits.spelled (halt false)
  | .item s, hs, name, _, _, put, halt, x, h, levels, hfits => by
      obtain ⟨hshort, inner, rfl, hentries⟩ := hfits.entries
      obtain ⟨header, hheader, hbytes⟩ := Tree.bytes_map hshort
      obtain ⟨⟨hname, hval⟩, -⟩ := List.forall_mem_cons.mp hentries
      obtain ⟨nameHeader, hnameHeader, hnameBytes⟩ := Tree.bytes_text hname.short
      show Element _ _ (Tree.bytes policy (.map [(.text name, s.tree x)])) _
      rw [hbytes]
      show Element _ _ (header ++ (Tree.bytes policy (.text name) ++ (Tree.bytes policy _ ++ []))) _
      rw [hnameBytes, List.append_nil]
      exact element_restoreVariant_entry hheader hnameHeader hname.spelled (halt true)
        ((s.restores hpolicy hs s.fresh h hval).map put)

end

theorem Row.wellNamed_replicate {s : Schema} (h : s.WellNamed) :
    (n : Nat) → (Row.replicate s n).WellNamed
  | 0 => trivial
  | n + 1 => ⟨h, wellNamed_replicate h n⟩

/-- Options are read through pointers in order, whether or not these share what
they lead to. -/
theorem reads_restorePointers (hpolicy : policy ≠ .aggressive) {s : Schema} (hs : s.WellNamed) :
    (ps : List Pointer) → {xs : (s.pointees ps).Val} → (cells : Cells s) →
    (s.pointees ps).Storable xs → {levels : Nat} →
    (∀ t ∈ (s.pointees ps).trees xs, t.Fits levels) → ∀ key outer,
    Reads (s.restorePointers ps cells) (.opened .array key ps.length :: outer)
      (.opened .array key 0 :: outer) levels
      (Tree.bytesElems policy ((s.pointees ps).trees xs))
      (cells.putAll ps ((s.pointees ps).reread xs))
  | [], _, cells, _, _, _, _, _ => .pure ([], cells)
  | p :: ps, (x, xs), cells, h, _, hfits, key, _ => by
      obtain ⟨hfirst, hrest⟩ := List.forall_mem_cons.mp hfits
      have hitem := (Schema.restores hpolicy (.option s) hs (p.map cells.object) h.1 hfirst).map
        (cells.put? p)
      rw [← Schema.restorePointer_eq] at hitem
      have hitems := reads_restorePointers hpolicy hs ps
        (cells.put? p ((Schema.option s).reread x)).2 h.2 hrest key
      exact (hitem.inArray key ps.length).bind ((hitems _).map _ (Nat.le_refl _)) (Nat.le_refl _)

theorem element_restoreShared (hpolicy : policy ≠ .aggressive) {s : Schema} (hs : s.WellNamed)
    (ps : List Pointer) (cells : Cells s) {xs : (Schema.tuple (s.pointees ps)).Val}
    {levels : Nat} (hxs : (Schema.tuple (s.pointees ps)).Storable xs)
    (hfits : ((Schema.tuple (s.pointees ps)).tree xs).Fits levels) :
    Element (s.restoreShared ps cells) levels
      (((Schema.tuple (s.pointees ps)).tree xs).bytes policy)
      (cells.putAll ps ((Schema.tuple (s.pointees ps)).reread xs)) := by
  obtain ⟨hshort, inner, rfl, helems⟩ := hfits.elems
  obtain ⟨header, hheader, hbytes⟩ := Tree.bytes_array hshort
  have hlen : ((s.pointees ps).trees xs).length = ps.length :=
    ((s.pointees ps).length_trees xs).trans (Row.length_replicate _ _)
  replace hheader : Grammar.ArrayHeader header ps.length := hlen ▸ hheader
  show Element (restoreTuple ps.length _) _ (Tree.bytes policy (.array _)) _
  rw [hbytes]
  exact element_restoreTuple hheader (reads_restorePointers hpolicy hs ps cells hxs.2 helems)

end Restore

/-- What is read where it stands is read at the start of an input. -/
theorem Cursor.Element.atStart {α : Type} {step : Step α} {bs : Bytes} {a : α}
    (h : Element step Value.defaultDepth bs a) {reading : DecodePolicy}
    (hreading : reading ≠ .exact) (rest : Bytes) :
    ∃ lastId, step (.ofBytes reading .memory (bs ++ rest)) =
      .ok a ((Cursor.ofBytes reading .memory (bs ++ rest)).moved bs.length [] lastId) :=
  h [] trivial _ rest
    { memory := rfl, left := rfl, frames := rfl, room := Nat.le_of_eq (Nat.zero_add _),
      policy := hreading }

/-- An object is archived as its tree, and what is read where that stands is read
of the archive, whatever follows. -/
theorem Schema.read_archive (s : Schema) {policy : EncodePolicy} {reading : DecodePolicy}
    (hreading : reading ≠ .exact) {x : s.Val} (hx : s.Storable x)
    (hshort : (s.tree x).Everywhere Tree.Short) {α : Type} {step : Step α} {a : α}
    (hstep : Element step Value.defaultDepth ((s.tree x).bytes policy) a) (rest : Bytes) :
    ∃ archived c, s.archive policy .buffer x = .ok () archived ∧
      step.run (.ofBytes reading .memory (archived.sink.out.toList ++ rest)) = .ok a c ∧
      c.source.left = rest ∧ c.source.position = archived.written ∧ c.frames = [] := by
  let bytes := (s.tree x).bytes policy
  obtain ⟨lastId, hrun⟩ := hstep.atStart hreading rest
  let after := (Cursor.ofBytes reading .memory (bytes ++ rest)).moved bytes.length [] lastId
  refine ⟨_, after, Serializer.run_of_tree policy (s.tells_tree hx) hshort, ?_,
    List.drop_left, rfl, rfl⟩
  rw [Serializer.out_extend]
  exact hrun

/-- Pointers that are not shared lead to what comes back, like options. -/
theorem Schema.restoreShared_archive {policy : EncodePolicy} (hpolicy : policy ≠ .aggressive)
    {reading : DecodePolicy} (hreading : reading ≠ .exact) (s : Schema) (hnames : s.WellNamed)
    {ps : List Pointer} {cells : Cells s} (hcells : cells.Unshared ps)
    {xs : (Schema.tuple (s.pointees ps)).Val} (hxs : (Schema.tuple (s.pointees ps)).Storable xs)
    (hheight : ((Schema.tuple (s.pointees ps)).tree xs).height ≤ Value.defaultDepth)
    (rest : Bytes) :
    ∃ archived qs found, ∃ ys : (s.pointees ps).Val, ∃ c,
      (Schema.tuple (s.pointees ps)).archive policy .buffer xs = .ok () archived ∧
      (s.restoreShared ps cells).run
          (.ofBytes reading .memory (archived.sink.out.toList ++ rest)) = .ok (qs, found) c ∧
      found.contents qs = Row.items ps.length ys ∧ (s.pointees ps).Same ys xs ∧
      c.source.left = rest ∧ c.source.position = archived.written ∧ c.frames = [] := by
  have hrow : (Schema.tuple (s.pointees ps)).WellNamed :=
    Row.wellNamed_replicate (s := .option s) hnames ps.length
  have hfits : ((Schema.tuple (s.pointees ps)).tree xs).Fits Value.defaultDepth :=
    Schema.fits_tree _ hrow hxs hheight
  obtain ⟨archived, c, harchive, hrun, hafter⟩ := Schema.read_archive _ hreading hxs hfits.short
    (element_restoreShared hpolicy hnames ps cells hxs hfits) rest
  exact ⟨archived, _, _, _, c, harchive, hrun, hcells.contents_putAll _,
    (s.pointees ps).same_reread xs, hafter⟩

end MsgPack
