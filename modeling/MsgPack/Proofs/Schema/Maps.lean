import MsgPack.Proofs.Cursor.InPlace
import MsgPack.Proofs.Schema.Entries
import MsgPack.Proofs.Schema.Layers
import MsgPack.Proofs.Schema.Relocating
import MsgPack.Proofs.Schema.Rereading
import MsgPack.Proofs.Schema.RoundTrip
import MsgPack.Proofs.Schema.Scanning

/-!
Maps are read by the last word on each key. Both readers, the direct one and the
one of archives, make the map of the entries that they come upon, however these
are spelled and in whatever order they stand, and a map that was read comes back
as it is.
-/

namespace MsgPack

open Cursor (Setting)
open Put (maxLength)

/-! ### Keys that are always in order -/

/-- Whether an object may be a NaN by itself, or a value that holds one. -/
def Schema.isFloating : Schema → Bool
  | .float _ | .number | .value _ => true
  | _ => false

mutual

/-- Where there are no floats there are no NaNs. -/
theorem Schema.comparable_of_lacks : (s : Schema) → s.lacks Schema.isFloating → (x : s.Val) →
    s.Comparable x
  | .float _, h, _ | .number, h, _ | .value _, h, _ => nomatch h
  | .list s, h, (_ : List s.Val) => Schema.comparable_list.mpr fun x _ => s.comparable_of_lacks h x
  | .map k v, h, (_ : List (k.Val × v.Val)) =>
      have h := Bool.and_eq_true_iff.mp h
      Schema.comparable_map.mpr fun e _ =>
        ⟨k.comparable_of_lacks h.1 e.1, v.comparable_of_lacks h.2 e.2⟩
  | .option _, _, none => trivial
  | .option s, h, some x => s.comparable_of_lacks h x
  | .tuple r, h, x => ⟨trivial, r.comparable_of_lacks h x⟩
  | .struct r, h, x => ⟨trivial, r.comparable_fieldTrees.mpr (r.comparable_of_lacks h x)⟩
  | .variant a, h, x => a.comparable_of_lacks h x
  | .nil, _, _ | .bool, _, _ | .int .., _, _ | .carried _, _, _ | .char, _, _ | .text .., _, _
  | .binary _, _, _ | .extension _, _, _ | .fixedExtension _, _, _ | .timestamp _, _, _
  | .instant _, _, _ => trivial

theorem Row.comparable_of_lacks : (r : Row) → r.lacks Schema.isFloating → (x : r.Val) →
    r.Comparable x
  | .nil, _, _ => trivial
  | .cons _ s rest, h, (x, xs) =>
      have h := Bool.and_eq_true_iff.mp h
      ⟨s.comparable_of_lacks h.1 x, rest.comparable_of_lacks h.2 xs⟩

theorem Alternatives.comparable_of_lacks : (a : Alternatives) → a.lacks Schema.isFloating →
    (x : a.Val) → (a.tree x).Everywhere Tree.Comparable
  | .last name c, h, x => c.comparable_of_lacks name h x
  | .cons name c _, h, .inl x => c.comparable_of_lacks name (Bool.and_eq_true_iff.mp h).1 x
  | .cons _ _ rest, h, .inr x => rest.comparable_of_lacks (Bool.and_eq_true_iff.mp h).2 x

theorem Content.comparable_of_lacks : (c : Content) → (name : Bytes) →
    c.lacks Schema.isFloating → (x : c.Val) → (c.tree name x).Everywhere Tree.Comparable
  | .unit, _, _, _ => trivial
  | .item s, _, h, x => ⟨trivial, trivial, s.comparable_of_lacks h x, trivial⟩

end

/-! ### Entries in an input -/

/-- A map in an input: a header that tells how many entries there are, and of
each entry its key, in one language, and then its value, in the other. -/
def MapSpelling {α β : Type} (key : Language α) (val : Language β) : Language (List (α × β)) :=
  fun bs es => ∃ header body, bs = header ++ body ∧ Grammar.MapHeader header es.length ∧
    (key.pair val).repeated es.length body es

namespace Schema

variable {k v : Schema} {es : List (k.Val × v.Val)}

theorem plain_map (hk : k.plain) (hv : v.plain) : (map k v).plain :=
  Bool.and_eq_true_iff.mpr ⟨hk, hv⟩

theorem findsOn_map {hk : k.plain} {hv : v.plain} {kind : SourceKind} {bs : Bytes}
    (h : MapSpelling ((k.decode hk).FindsOn kind) ((v.decode hv).FindsOn kind) bs es) :
    ((map k v).decode (plain_map hk hv)).FindsOn kind bs (mapOfEntries k.compare es) := by
  obtain ⟨header, body, rfl, hheader, hbody⟩ := h
  have hentries : (Get.FindsOn kind (do return (← k.decode hk, ← v.decode hv))).repeated es.length
      body es := by
    refine Language.repeated_mono (fun bs e he => ?_) hbody
    obtain ⟨_, _, x, rfl, hx, y, hy, rfl⟩ := he
    exact hx.bind (hy.map (x, ·))
  exact (Get.accepts_mapHeader.findsOn hheader).bind
    ((Get.FindsOn.collect hentries).map (mapOfEntries k.compare))

theorem element_map {st : Setting} {levels : Nat} {bs : Bytes}
    (h : MapSpelling (st.Restores (k.restore k.fresh) levels)
      (st.Restores (v.restore v.fresh) levels) bs es) (initial : (map k v).Val) :
    st.Element ((map k v).restore initial) (levels + 1) bs (mapOfEntries k.compare es) := by
  obtain ⟨header, body, rfl, hheader, hbody⟩ := h
  -- what is restored of a key or a value alone is restored of it in its place
  have hentries := Language.repeated_mono (fun _ _ => Language.pair_mono
    (fun _ _ => Setting.Element.of_restores fun _ => k.portable_restore k.fresh)
    (fun _ _ => Setting.Element.of_restores fun _ => v.portable_restore v.fresh)) hbody
  exact (Setting.Element.entries hheader hentries).map (mapOfEntries k.compare)

/-! ### Maps that are written -/

/-- In the direct encoding `x` is written as bytes that are read as `y`, whatever
follows them. -/
def DecodedAs (s : Schema) (h : s.plain) (kind : SourceKind) (x y : s.Val) : Prop :=
  ∃ bs : Bytes,
    (∀ sink : Sink, sink.kind = .buffer → s.encode h x sink = .ok bs.length (sink.append bs)) ∧
    (s.decode h).FindsOn kind bs y

/-- From the archive of `x` comes `y`, whatever the target held before and
whatever follows the archive, which is consumed with no scope left open. -/
def RestoredAs (s : Schema) (policy : EncodePolicy) (reading : DecodePolicy) (kind : SourceKind)
    (x y : s.Val) : Prop :=
  ∃ archived, s.archive policy .buffer x = .ok () archived ∧
    ∀ (initial : s.Val) (rest : Bytes), ∃ c,
      (s.restore initial).run (.ofBytes reading kind (archived.sink.out.toList ++ rest)) =
        .ok y c ∧
      c.source.left = rest ∧ c.source.position = archived.written ∧ c.frames = []

theorem decodedAs_map {hk : k.plain} {hv : v.plain} {kind : SourceKind}
    (hkind : kind = .memory ∨ (map k v).owning) (hlen : es.length ≤ maxLength)
    (hes : ∀ e ∈ es, k.Admissible hk e.1 ∧ v.Admissible hv e.2) :
    (map k v).DecodedAs (plain_map hk hv) kind es (mapOfEntries k.compare es) := by
  have hkind' := or_and_left.mp (hkind.imp_right Bool.and_eq_true_iff.mp)
  obtain ⟨hwrites, hfinds⟩ := Codec.Returns.entries k.compare hlen fun e he =>
    ⟨k.returns hk hkind'.1 (hes e he).1, v.returns hv hkind'.2 (hes e he).2⟩
  exact ⟨_, fun _ hsink => hwrites.buffer hsink, hfinds⟩

/-- What is read of memory is read of a stream, if nothing is borrowed. -/
theorem restoredAs_of_element {s : Schema} {policy : EncodePolicy} {reading : DecodePolicy}
    {kind : SourceKind} {x y : s.Val} (hreading : reading ≠ .exact)
    (hkind : kind = .memory ∨ s.owning) (htells : Tells (s.events x) (s.tree x))
    (hshort : (s.tree x).Everywhere Tree.Short)
    (h : ∀ initial, Cursor.Element (s.restore initial) Value.defaultDepth
      ((s.tree x).bytes policy) y) : s.RestoredAs policy reading kind x y := by
  refine ⟨_, Serializer.run_of_tree policy htells hshort, fun initial rest => ?_⟩
  rw [Serializer.out_extend]
  let bytes := (s.tree x).bytes policy
  obtain ⟨lastId, hrestore⟩ := (h initial).atStart hreading rest
  have hscans : Scans (s.owning = true) 1 (s.restore initial) := s.scans_restore id initial
  obtain ⟨n, c, hc, hrun⟩ := hscans.ok_of_memory hkind
    (c := .ofBytes reading .memory (bytes ++ rest)) hrestore
  obtain rfl : bytes.length = n :=
    Nat.add_left_cancel (congrArg (fun c : Cursor => c.source.position) hc)
  exact ⟨_, hrun, List.drop_left, rfl, (congrArg Cursor.frames hc).symm⟩

theorem restoredAs_map {policy : EncodePolicy} {reading : DecodePolicy} {kind : SourceKind}
    (hpolicy : policy ≠ .aggressive) (hreading : reading ≠ .exact)
    (hkind : kind = .memory ∨ (map k v).owning) (hnames : (map k v).WellNamed)
    (hes : ∀ e ∈ es, k.Storable e.1 ∧ v.Storable e.2)
    (hfits : ((map k v).tree es).Fits Value.defaultDepth) :
    (map k v).RestoredAs policy reading kind es
      ((map k v).reread (mapOfEntries k.compare es)) := by
  refine restoredAs_of_element hreading hkind (tells_map fun e he => ?_) hfits.short
    fun initial => element_restoreMap initial hfits fun e he inner hkey hval => ?_
  · exact ⟨k.tells_tree (hes e he).1, v.tells_tree (hes e he).2⟩
  · exact ⟨k.restores hpolicy hnames.1 k.fresh (hes e he).1 hkey,
      v.restores hpolicy hnames.2 v.fresh (hes e he).2 hval⟩

theorem fits_mapOfEntries {levels : Nat} (h : ((map k v).tree es).Fits levels) :
    ((map k v).tree (mapOfEntries k.compare es)).Fits levels := by
  obtain ⟨hshort, inner, rfl, hes⟩ := h.entries
  have hlen : ((mapOfEntries k.compare es).map fun e => (k.tree e.1, v.tree e.2)).length ≤
      (es.map fun e => (k.tree e.1, v.tree e.2)).length := by
    simpa using length_mapOfEntries_le es
  refine Tree.fits_map (Nat.le_trans hlen hshort) (List.forall_mem_map.mpr ?_)
  exact forall_mapOfEntries (P := fun x => (k.tree x).Fits inner)
    (R := fun y => (v.tree y).Fits inner) fun e he => hes _ (List.mem_map_of_mem he)

/-- Entries are restored as a map, and so is the map; what was restored is as good
to archive as what was written, and comes back as it is. -/
theorem restoredAs_mapOfEntries {policy : EncodePolicy} {reading : DecodePolicy}
    {kind : SourceKind} (hkeys : ∀ e ∈ es, k.Comparable e.1) (hpolicy : policy ≠ .aggressive)
    (hreading : reading ≠ .exact) (hkind : kind = .memory ∨ (map k v).owning)
    (hnames : (map k v).WellNamed) (hlen : es.length ≤ maxLength)
    (hes : ∀ e ∈ es, k.Storable e.1 ∧ v.Storable e.2)
    (hheight : ((map k v).tree es).height ≤ Value.defaultDepth) :
    let found := mapOfEntries k.compare es
    let reread : List (k.Val × v.Val) := (map k v).reread found
    (map k v).RestoredAs policy reading kind es reread ∧
      (map k v).RestoredAs policy reading kind found reread ∧
      (map k v).RestoredAs policy reading kind reread reread := by
  intro found reread
  have hfits : ((map k v).tree es).Fits Value.defaultDepth :=
    fits_map hlen hheight fun e he _ hkey hval =>
      ⟨k.fits_tree hnames.1 (hes e he).1 hkey, v.fits_tree hnames.2 (hes e he).2 hval⟩
  have hfits' : ((map k v).tree found).Fits Value.defaultDepth := fits_mapOfEntries hfits
  have hes' : ∀ e ∈ found, k.Storable e.1 ∧ v.Storable e.2 := forall_mapOfEntries hes
  have hfound : mapOfEntries k.compare found = found := mapOfEntries_mapOfEntries k.orders hkeys
  refine ⟨restoredAs_map hpolicy hreading hkind hnames hes hfits, ?_, ?_⟩
  · have hwritten := restoredAs_map hpolicy hreading hkind hnames hes' hfits'
    rwa [hfound] at hwritten
  · have hstorable : ∀ e ∈ reread, k.Storable e.1 ∧ v.Storable e.2 :=
      List.forall_mem_map.mpr fun e he =>
        ⟨k.storable_reread (hes' e he).1, v.storable_reread (hes' e he).2⟩
    have hmap : mapOfEntries k.compare reread = reread :=
      (mapOfEntries_reread found).trans (congrArg (map k v).reread hfound)
    have hagain : (map k v).reread (mapOfEntries k.compare reread) = reread :=
      (congrArg (map k v).reread hmap).trans ((map k v).reread_reread found)
    have hwritten := restoredAs_map hpolicy hreading hkind hnames hstorable
      ((map k v).fits_reread hfits')
    rwa [hagain] at hwritten

/-- Reading a map keeps the last word on each key. Whatever entries there are,
with keys that hold no NaN, both readers make the same map of them: its keys
ascend, they are the keys that occur, and each is bound to what comes with its
last occurrence. This is so however the entries are spelled, by every policy and
from every kind of source, and in whatever order they are if no two have a key in
common. Entries whose keys and values come back themselves are read as the map,
and so is the map once it is written: directly it comes back as it is, and from
its archive up to the sort of its NaNs, and from then on as it is. -/
theorem maps_keep_last (hkeys : ∀ e ∈ es, k.Comparable e.1) :
    let found := mapOfEntries k.compare es
    let reread : List (k.Val × v.Val) := (map k v).reread found
    LastWins k.compare k.Comparable es found ∧
    (∀ fs : List (k.Val × v.Val), fs = es ∨ fs.Perm es ∧ Distinct k.compare es →
      (∀ (hk : k.plain) (hv : v.plain) (kind : SourceKind) (bs : Bytes),
        MapSpelling ((k.decode hk).FindsOn kind) ((v.decode hv).FindsOn kind) bs fs →
          ((map k v).decode (plain_map hk hv)).FindsOn kind bs found) ∧
      ∀ (st : Setting) (levels : Nat) (bs : Bytes) (initial : (map k v).Val),
        MapSpelling (st.Restores (k.restore k.fresh) levels)
          (st.Restores (v.restore v.fresh) levels) bs fs →
          st.Element ((map k v).restore initial) (levels + 1) bs found) ∧
    (∀ (hk : k.plain) (hv : v.plain) (kind : SourceKind),
      kind = .memory ∨ (map k v).owning → es.length ≤ maxLength →
      (∀ e ∈ es, k.Admissible hk e.1 ∧ v.Admissible hv e.2) →
        (map k v).DecodedAs (plain_map hk hv) kind es found ∧
        (map k v).DecodedAs (plain_map hk hv) kind found found) ∧
    ∀ (policy : EncodePolicy) (reading : DecodePolicy) (kind : SourceKind),
      policy ≠ .aggressive → reading ≠ .exact → kind = .memory ∨ (map k v).owning →
      (map k v).WellNamed → es.length ≤ maxLength → (∀ e ∈ es, k.Storable e.1 ∧ v.Storable e.2) →
      ((map k v).tree es).height ≤ Value.defaultDepth →
        (map k v).Same reread found ∧
        (map k v).RestoredAs policy reading kind es reread ∧
        (map k v).RestoredAs policy reading kind found reread ∧
        (map k v).RestoredAs policy reading kind reread reread := by
  intro found reread
  refine ⟨lastWins_mapOfEntries k.orders hkeys, fun fs hfs => ?_,
    fun hk hv kind hkind hlen hes => ⟨decodedAs_map hkind hlen hes, ?_⟩,
    fun _ _ _ hpolicy hreading hkind hnames hlen hes hheight => ⟨(map k v).same_reread found,
      restoredAs_mapOfEntries hkeys hpolicy hreading hkind hnames hlen hes hheight⟩⟩
  · have hsame : mapOfEntries k.compare fs = found := by
      rcases hfs with rfl | ⟨hperm, hdistinct⟩
      · rfl
      · exact mapOfEntries_eq_of_perm k.orders hkeys hdistinct hperm
    rw [← hsame]
    exact ⟨fun _ _ _ _ => findsOn_map, fun _ _ _ initial h => element_map h initial⟩
  · have hfound : mapOfEntries k.compare found = found := mapOfEntries_mapOfEntries k.orders hkeys
    have hlen : found.length ≤ maxLength := Nat.le_trans (length_mapOfEntries_le es) hlen
    have hwritten := decodedAs_map hkind hlen (forall_mapOfEntries hes)
    rwa [hfound] at hwritten

/-- A key that occurs twice: on a stream behind a longer header than it takes,
directly from memory, and from an archive. -/
theorem maps_keep_last_twice :
    let k : Schema := .text .owned []
    let v : Schema := .bool
    let es : List (k.Val × v.Val) := [([0x61], true), ([0x62], true), ([0x61], false)]
    let found : List (k.Val × v.Val) := [([0x61], false), ([0x62], true)]
    (∀ e ∈ es, k.Comparable e.1) ∧ LastWins k.compare k.Comparable es found ∧
      ((map k v).decode rfl).FindsOn .stream
        [0xde, 0, 3, 0xa1, 0x61, 0xc3, 0xa1, 0x62, 0xc3, 0xa1, 0x61, 0xc2] found ∧
      (map k v).DecodedAs rfl .memory es found ∧
      (map k v).RestoredAs .lossless .widening .memory es found := by
  intro k v es found
  have hkeys : ∀ e ∈ es, k.Comparable e.1 := fun e _ => k.comparable_of_lacks rfl e.1
  obtain ⟨hlast, hreads, hdecoded, hrestored⟩ := maps_keep_last (v := v) hkeys
  have hkey (b : UInt8) (hb : Utf8.isValid [b]) : (k.decode rfl).FindsOn .stream [0xa1, b] [b] :=
    Get.lends_text.findsOn_take ⟨[0xa1], [b], 1, rfl,
      .fixed (by decide : (0xa1, 1) ∈ Grammar.fixstrTags), ⟨rfl, rfl⟩, hb⟩ (.inr rfl)
  have htrue : (v.decode rfl).FindsOn .stream [0xc3] true := Get.accepts_bool.findsOn .true
  have hfalse : (v.decode rfl).FindsOn .stream [0xc2] false := Get.accepts_bool.findsOn .false
  have ha := hkey 0x61 (by decide)
  have hspelled : MapSpelling ((k.decode rfl).FindsOn .stream) ((v.decode rfl).FindsOn .stream)
      [0xde, 0, 3, 0xa1, 0x61, 0xc3, 0xa1, 0x62, 0xc3, 0xa1, 0x61, 0xc2] es :=
    ⟨[0xde, 0, 3], _, rfl, .sized (by decide : (0xde, 2) ∈ Grammar.mapTags) rfl,
      _, _, _, rfl, ⟨_, _, _, rfl, ha, _, htrue, rfl⟩, _,
      ⟨_, _, _, rfl, ⟨_, _, _, rfl, hkey 0x62 (by decide), _, htrue, rfl⟩, _,
        ⟨_, _, _, rfl, ⟨_, _, _, rfl, ha, _, hfalse, rfl⟩, _, ⟨rfl, rfl⟩, rfl⟩, rfl⟩, rfl⟩
  have hadmissible : ∀ e ∈ es, k.Admissible rfl e.1 ∧ v.Admissible rfl e.2 := by
    intro e he
    simp only [es, List.mem_cons, List.not_mem_nil, or_false] at he
    rcases he with rfl | rfl | rfl <;> exact ⟨⟨by decide, by decide⟩, trivial⟩
  exact ⟨hkeys, hlast, (hreads es (.inl rfl)).1 rfl rfl .stream _ hspelled,
    (hdecoded rfl rfl .memory (.inl rfl) (by decide) hadmissible).1,
    (hrestored .lossless .widening .memory (by decide) (by decide) (.inl rfl) ⟨trivial, trivial⟩
      (by decide) hadmissible (by decide)).2.1⟩

/-- Keys that are lost. A NaN that comes first takes in all other numbers, so that
they are bound to nothing; and a text that is not valid is written as a key, and
then refused by both readers. -/
theorem keys_lost :
    let nan : Double := ⟨false, 0x7ff8000000000000, by decide⟩
    let one : Double := ⟨false, 0x3ff0000000000000, by decide⟩
    let two : Double := ⟨false, 0x4000000000000000, by decide⟩
    let k : Schema := .float .double
    let v : Schema := .intZero .u8
    let es : List (k.Val × v.Val) :=
      [(nan, IntType.u8.wrap 1), (one, IntType.u8.wrap 2), (two, IntType.u8.wrap 3)]
    let found : List (k.Val × v.Val) := [(nan, IntType.u8.wrap 3)]
    let texts : Schema := .map (.text .owned []) .bool
    let bytes : Bytes := [0x81, 0xa1, 0xff, 0xc3]
    (map k v).DecodedAs rfl .memory es found ∧
      (map k v).RestoredAs .exact .widening .memory es found ∧
      one ∉ found.map Prod.fst ∧ ¬ LastWins k.compare k.Comparable es found ∧
      (∃ sink, texts.encode rfl ([([0xff], true)] : List (Bytes × Bool)) { kind := .buffer } =
          .ok 4 sink ∧ sink.out.toList = bytes) ∧
      (∃ s, Get.run (texts.decode rfl) .memory bytes = .error (.invalidData (.invalidUtf8 1)) s) ∧
      ∃ c, texts.restoreFrom .widening .memory bytes =
        .error (.invalidData (.invalidUtf8 1)) c := by
  intro nan one two k v es found texts bytes
  have hlevel (x : Double) : x.compare nan = .eq :=
    FloatBits.compare_of_isNaN (by decide : nan.isNaN)
  have hfound : mapOfEntries k.compare es = found := mapOfEntries_of_level hlevel _ _
  have hadmissible : ∀ e ∈ es, k.Admissible rfl e.1 ∧ v.Admissible rfl e.2 :=
    fun _ _ => ⟨trivial, trivial⟩
  have hdecoded : (map k v).DecodedAs rfl .memory es (mapOfEntries k.compare es) :=
    decodedAs_map (.inl rfl) (by decide) hadmissible
  have hrestored : (map k v).RestoredAs .exact .widening .memory es
      ((map k v).reread (mapOfEntries k.compare es)) :=
    restoredAs_map (by decide) (by decide) (.inl rfl) ⟨trivial, trivial⟩
      (fun _ _ => ⟨trivial, trivial⟩) (by decide)
  rw [hfound] at hdecoded hrestored
  have hne : one ≠ nan := fun h => absurd (congrArg FloatBits.magnitude h) (by decide)
  have hrefused : ∃ c, Schema.restoreFrom (.map (.text .owned []) .bool) .widening .memory
      [0x81, 0xa1, 0xff, 0xc3] = .error (.invalidData (.invalidUtf8 1)) c := ⟨_, rfl⟩
  refine ⟨hdecoded, hrestored, fun h => hne (List.mem_singleton.mp h), fun h => ?_, ⟨_, rfl, rfl⟩,
    ⟨_, rfl⟩, hrefused⟩
  -- the NaN is bound to what came last of all, and not to what came last with the one
  have hnew : binding k.compare one found = some (IntType.u8.wrap 3) :=
    (binding_cons one _ _).trans (if_pos (hlevel one))
  have hapart : one.compare two ≠ .eq := by decide
  have hsame : one.compare one = .eq := by decide
  have hlast : binding k.compare one es.reverse = some (IntType.u8.wrap 2) :=
    (binding_cons one _ _).trans <| (if_neg hapart).trans <| (binding_cons one _ _).trans <|
      if_pos hsame
  have hbinds := h.binds one (by decide : ¬ one.isNaN)
  have hwrap : IntType.u8.wrap 3 ≠ IntType.u8.wrap 2 := by decide
  exact hwrap (Option.some.inj (hnew.symm.trans (hbinds.trans hlast)))

end Schema

end MsgPack
