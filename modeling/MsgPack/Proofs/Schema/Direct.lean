import MsgPack.Proofs.Cursor.Mirroring
import MsgPack.Proofs.Schema.Leaves
import MsgPack.Proofs.Schema.Same
import MsgPack.Proofs.Value.Encoding

/-!
The direct encoding and back. A codec is a way to write the objects of a type
and a way to read them; the codecs of containers are made from those of what is
inside. An object returns if it is written as bytes that are read as the object
again, whatever follows them, and each construction makes returning objects of
returning ones.
-/

namespace MsgPack

open Put (maxLength runAll)

/-- How the objects of a type are written, and how they are read. -/
structure Codec (α : Type) where
  put : α → Put Nat
  get : Get α

namespace Codec

variable {α β : Type} {kind : SourceKind}

/-- What is written for an object where there is room for everything. -/
def bytes (c : Codec α) (x : α) : Bytes := Put.bytes (c.put x)

/-- Whether an object is written as something that does not begin as nil does. -/
def NotNil (c : Codec α) (x : α) : Prop := ∃ b rest, c.bytes x = b :: rest ∧ b ≠ 0xc0

/-! ### Constructions -/

def arrayHeader : Codec Nat := ⟨Put.arrayHeader, Get.arrayHeader⟩

/-- The header of a map tells the number of its entries. -/
def mapHeader : Codec Nat := ⟨Put.mapHeader, Get.mapHeader⟩

def list (c : Codec α) : Codec (List α) where
  put xs := do
    let header ← Put.arrayHeader xs.length
    xs.foldlM (fun n x => return n + (← c.put x)) header
  get := do
    let n ← Get.arrayHeader
    collect c.get n

/-- Maps with their keys in the order `cmp`. -/
def map (cmp : α → α → Ordering) (k : Codec α) (v : Codec β) : Codec (List (α × β)) where
  put es := do
    let header ← Put.mapHeader es.length
    es.foldlM (fun n e => return n + (← k.put e.1) + (← v.put e.2)) header
  get := do
    let n ← Get.mapHeader
    let es ← collect (do return (← k.get, ← v.get)) n
    return mapOfEntries cmp es

def option (c : Codec α) : Codec (Option α) where
  put
    | none => Put.nil
    | some x => c.put x
  get := do
    let m ← Get.marker
    match m.code with
    | .nil => Get.after (pure none)
    | _ => return some (← c.get)

/-- Nothing at all, which takes no bytes. -/
def nothing : Codec Unit := ⟨fun _ => pure 0, pure ()⟩

/-- Two objects one after the other, with nothing between them. -/
def next (c : Codec α) (d : Codec β) : Codec (α × β) where
  put x := do
    let m ← c.put x.1
    let n ← d.put x.2
    return m + n
  get := do
    let x ← c.get
    let y ← d.get
    return (x, y)

/-- `n` objects in a row, which `row` reads and writes, behind the header of an
array. -/
def tuple (n : Nat) (row : Codec α) : Codec α where
  put x := do
    let header ← Put.arrayHeader n
    let m ← row.put x
    return header + m
  get := do
    checkArity n (← Get.arrayHeader)
    row.get

/-! ### What returns -/

/-- An object is written as its bytes, and these are read as the object. -/
structure Returns (kind : SourceKind) (c : Codec α) (x : α) : Prop where
  writes : Put.Writes (c.put x) (c.bytes x)
  finds : c.get.FindsOn kind (c.bytes x) x

namespace Returns

variable {c : Codec α} {d : Codec β} {x : α} {y : β} {bs : Bytes}

theorem of (hwrites : Put.Writes (c.put x) bs) (hfinds : c.get.FindsOn kind bs x) :
    Returns kind c x := by
  have hbytes : c.bytes x = bs := hwrites.bytes_eq
  exact ⟨hbytes ▸ hwrites, hbytes ▸ hfinds⟩

theorem arrayHeader {n : Nat} (hn : n ≤ maxLength) : Returns kind arrayHeader n := by
  obtain ⟨header, hput, hheader⟩ := Put.arrayHeader_eq hn
  exact of (.single hput) (Get.accepts_arrayHeader.findsOn hheader)

theorem mapHeader {n : Nat} (hn : n ≤ maxLength) : Returns kind mapHeader n := by
  obtain ⟨header, hput, hheader⟩ := Put.mapHeader_eq hn
  exact of (.single hput) (Get.accepts_mapHeader.findsOn hheader)

/-- Objects one after another are read as the same objects. -/
theorem repeated {xs : List α} (h : ∀ x ∈ xs, Returns kind c x) :
    (c.get.FindsOn kind).repeated xs.length (xs.flatMap c.bytes) xs := by
  have hmap : (c.get.FindsOn kind).repeated xs.length (xs.flatMap c.bytes) (xs.map id) :=
    Language.repeated_map fun x hx => (h x hx).finds
  rwa [List.map_id] at hmap

theorem list {xs : List α} (hlen : xs.length ≤ maxLength) (h : ∀ x ∈ xs, Returns kind c x) :
    Returns kind c.list xs := by
  obtain ⟨header, hput, hheader⟩ := Put.arrayHeader_eq hlen
  exact of (.foldl (fun _ _ => rfl) (fun x hx => (h x hx).writes) (.single hput))
    ((Get.accepts_arrayHeader.findsOn hheader).bind (.collect (repeated h)))

theorem next (hx : Returns kind c x) (hy : Returns kind d y) : Returns kind (c.next d) (x, y) :=
  of (hx.writes.next hy.writes) (hx.finds.bind (hy.finds.map (x, ·)))

/-- Entries in whatever order are read as the map of them. -/
theorem entries (cmp : α → α → Ordering) {es : List (α × β)} (hlen : es.length ≤ maxLength)
    (h : ∀ e ∈ es, Returns kind c e.1 ∧ Returns kind d e.2) :
    Put.Writes ((map cmp c d).put es) ((map cmp c d).bytes es) ∧
      (map cmp c d).get.FindsOn kind ((map cmp c d).bytes es) (mapOfEntries cmp es) := by
  obtain ⟨header, hput, hheader⟩ := Put.mapHeader_eq hlen
  have hentry : ∀ e ∈ es, Returns kind (c.next d) e := fun e he => (h e he).1.next (h e he).2
  have hwrites : Put.Writes ((map cmp c d).put es) (header ++ es.flatMap (c.next d).bytes) :=
    .foldl (fun n e => by simp [Codec.next, Nat.add_assoc]) (fun e he => (hentry e he).writes)
      (.single hput)
  have hbytes : (map cmp c d).bytes es = header ++ es.flatMap (c.next d).bytes :=
    hwrites.bytes_eq
  rw [hbytes]
  exact ⟨hwrites, (Get.accepts_mapHeader.findsOn hheader).bind
    ((Get.FindsOn.collect (repeated hentry)).map (mapOfEntries cmp))⟩

/-- The keys of a map come in its order, so that collecting them builds it
again. -/
theorem map {cmp : α → α → Ordering} {es : List (α × β)} (hlen : es.length ≤ maxLength)
    (hsorted : es.Pairwise fun e f => cmp f.1 e.1 = .gt)
    (h : ∀ e ∈ es, Returns kind c e.1 ∧ Returns kind d e.2) : Returns kind (map cmp c d) es := by
  obtain ⟨hwrites, hfinds⟩ := entries cmp hlen h
  rw [mapOfEntries_of_ascending hsorted] at hfinds
  exact ⟨hwrites, hfinds⟩

theorem none : Returns kind c.option none :=
  of (.single (Put.marker_eq _)) (.marker (.after (.pure _)))

/-- What is there is read as something that is there, unless it begins as nil
does. -/
theorem some (hx : Returns kind c x) (hne : c.NotNil x) : Returns kind c.option (some x) := by
  obtain ⟨b, rest, hbytes, hb⟩ := hne
  refine of hx.writes ?_
  have hfinds := hx.finds.map Option.some
  rw [hbytes] at hfinds ⊢
  refine .marker ?_
  split
  · next hcode => exact absurd (Get.byte_of_code hcode rfl) hb
  · exact hfinds

theorem nothing : Returns kind nothing () := of .nothing (.pure ())

theorem tuple {n : Nat} (hn : n ≤ maxLength) (hx : Returns kind c x) :
    Returns kind (c.tuple n) x := by
  obtain ⟨header, hput, hheader⟩ := Put.arrayHeader_eq hn
  have harity : (checkArity n n : Get Unit) = pure () := if_pos rfl
  refine of (Put.Writes.next (.single hput) hx.writes)
    ((Get.accepts_arrayHeader.findsOn hheader).bind ?_)
  rw [harity, pure_bind]
  exact hx.finds

end Returns

end Codec

/-! ### Objects of schemas -/

def Schema.codec (s : Schema) (h : s.plain) : Codec s.Val := ⟨s.encode h, s.decode h⟩

def Row.codec (r : Row) (h : r.plain) : Codec r.Val := ⟨fun x => r.encode h x 0, r.decode h⟩

mutual

/-- What lets an object come back from its direct encoding. Lengths can be
announced, texts are valid, the clock is trusted with instants, values nest no
deeper than readers go, each key of a map is greater than those before it, and
what an option holds does not begin as nil does. -/
def Schema.Admissible : (s : Schema) → s.plain → s.Val → Prop
  | .text .., _, (bs : Bytes) => bs.length ≤ maxLength ∧ Utf8.isValid bs
  | .binary _, _, (bs : Bytes) => bs.length ≤ maxLength
  | .extension _, _, (e : Extension) => e.data.length ≤ maxLength
  | .fixedExtension _, _, (e : FixedExtension _) => e.ext.data.length ≤ maxLength
  | .instant _, _, (t : Instant _) =>
    -Timestamp.clockLimit ≤ t.toNanos.floorSeconds ∧ t.toNanos.floorSeconds ≤ Timestamp.clockLimit
  | .value _, _, (v : OwnedValue) => v.tree.Fits Value.defaultDepth
  | .list s, h, (xs : List s.Val) => xs.length ≤ maxLength ∧ ∀ x ∈ xs, s.Admissible h x
  | .map k v, h, (es : List (k.Val × v.Val)) =>
    have h := Bool.and_eq_true_iff.mp h
    es.length ≤ maxLength ∧ es.Pairwise (fun e f => k.compare f.1 e.1 = .gt) ∧
      ∀ e ∈ es, k.Admissible h.1 e.1 ∧ v.Admissible h.2 e.2
  | .option _, _, none => True
  | .option s, h, some x => s.Admissible h x ∧ (s.codec h).NotNil x
  | .tuple r, h, x => r.length ≤ maxLength ∧ r.Admissible h x
  | .nil, _, _ | .bool, _, _ | .int .., _, _ | .float _, _, _ | .number, _, _
  | .timestamp _, _, _ => True

def Row.Admissible : (r : Row) → r.plain → r.Val → Prop
  | .nil, _, _ => True
  | .cons _ s rest, h, (x, xs) =>
    have h := Bool.and_eq_true_iff.mp h
    s.Admissible h.1 x ∧ rest.Admissible h.2 xs

end

theorem Row.encode_written : (r : Row) → (h : r.plain) → (x : r.Val) → (written : Nat) →
    r.encode h x written = do return written + (← r.encode h x 0)
  | .nil, _, _, _ => rfl
  | .cons _ s rest, h, (x, xs), written => by
      have h' := Bool.and_eq_true_iff.mp h
      simp only [Row.encode, bind_assoc, Nat.zero_add]
      refine bind_congr fun n => ?_
      rw [rest.encode_written h'.2 xs (written + n), rest.encode_written h'.2 xs n, bind_assoc]
      simp [Nat.add_assoc]

theorem Row.codec_cons {name : Bytes} {s : Schema} {rest : Row} (h : (cons name s rest).plain)
    (hs : s.plain) (hrest : rest.plain) :
    (cons name s rest).codec h = (s.codec hs).next (rest.codec hrest) := by
  have hput : ∀ x : s.Val × rest.Val,
      (cons name s rest).encode h x 0 = ((s.codec hs).next (rest.codec hrest)).put x := by
    rintro ⟨x, xs⟩
    simp only [Row.encode, Codec.next, Schema.codec, Row.codec, Nat.zero_add]
    exact bind_congr fun n => rest.encode_written hrest xs n
  exact congrArg (Codec.mk · _) (funext hput)

theorem Schema.codec_list {s : Schema} (h : (list s).plain) :
    (list s).codec h = (Schema.codec s h).list := rfl

theorem Schema.codec_map {k v : Schema} (h : (map k v).plain) (hk : k.plain) (hv : v.plain) :
    (map k v).codec h = (k.codec hk).map k.compare (v.codec hv) := rfl

theorem Schema.codec_tuple {r : Row} (h : (tuple r).plain) :
    (tuple r).codec h = (Row.codec r h).tuple r.length := by
  have hput : ∀ x : r.Val, (tuple r).encode h x = ((Row.codec r h).tuple r.length).put x :=
    fun x => bind_congr fun header => Row.encode_written r h x header
  exact congrArg (Codec.mk · _) (funext hput)

theorem Schema.codec_option {s : Schema} (h : (option s).plain) :
    (option s).codec h = (Schema.codec s h).option := by
  have hput : ∀ x : Option s.Val, (option s).encode h x = (Schema.codec s h).option.put x := by
    rintro (_ | x) <;> rfl
  exact congrArg (Codec.mk · _) (funext hput)

/-- Values are read in either manner, from memory by way of the cursor that
mirrors their reader. -/
theorem Storage.findsOn_value {kind : SourceKind} {storage : Storage} (h : kind.Serves storage)
    {depth : Nat} {bs : Bytes} {v : OwnedValue} (hv : Grammar.Derives depth bs v) :
    (storage.value depth).FindsOn kind bs v := by
  cases storage with
  | owned => exact (accepts_get depth).findsOn hv
  | borrowed =>
      obtain rfl := h.resolve_right Storage.noConfusion
      intro s rest hk hl
      let c : Cursor := { policy := .widening, source := s, maxDepth := depth }
      have hready : c.Ready [] depth bs rest :=
        { memory := hk, left := hl, frames := rfl, room := Nat.le_of_eq (Nat.zero_add _),
          policy := DecodePolicy.noConfusion }
      have hvalue : Cursor.Element (Cursor.value .borrowed) depth bs v :=
        Cursor.element_value fun _ hle => hv.mono hle
      obtain ⟨id, hrun⟩ := hvalue [] trivial c rest hready
      cases Cursor.alike_storage_value .borrowed (c := c) trivial with
      | ok w t id' hcursor hget =>
          obtain ⟨hw, hc⟩ := EStateM.Result.ok.inj (hcursor.symm.trans hrun)
          obtain rfl : t = s.advance bs.length := congrArg Cursor.source hc
          exact hw ▸ hget
      | error hcursor _ _ => cases hcursor.symm.trans hrun

mutual

/-- Every plain object that may be written returns, from memory as well as from
a stream if it owns all its content. -/
theorem Schema.returns {kind : SourceKind} : (s : Schema) → (h : s.plain) →
    (kind = .memory ∨ s.owning) → {x : s.Val} → s.Admissible h x → (s.codec h).Returns kind x
  | .nil, _, _, _, _ => .of (.single (Put.marker_eq _)) (Get.accepts_nil.findsOn rfl)
  | .bool, _, _, (b : Bool), _ => by
      refine .of (.single (Put.marker_eq _)) (Get.accepts_bool.findsOn ?_)
      cases b <;> first | exact .false | exact .true
  | .int t _, _, _, (i : t.Value), _ => by
      obtain ⟨bs, hput, hfinds⟩ := Get.findsOn_exactInt kind t i
      exact .of (.single hput) hfinds
  | .float p, _, _, (x : FloatBits p), _ => by
      obtain ⟨bs, hput, hfinds⟩ := Get.findsOn_exactFloat kind p x
      exact .of (.single hput) hfinds
  | .number, _, _, (n : Number), _ =>
      .of (Value.writes_number n)
        (Get.accepts_anyNumber.findsOn (Number.numeral_tree (by decide) n))
  | .text _ _, _, hs, (bs : Bytes), hx => by
      obtain ⟨header, hput, hheader⟩ := Put.text_eq hx.1
      exact .of (.pair hput) (Get.lends_text.findsOn_take
        ⟨header, bs, _, rfl, hheader, ⟨rfl, rfl⟩, hx.2⟩ (hs.imp_right of_decide_eq_true))
  | .binary _, _, hs, (bs : Bytes), hx => by
      obtain ⟨header, hput, hheader⟩ := Put.binaryHeader_eq hx
      exact .of (.pair (Put.binary_runs hput)) (Get.lends_binary.findsOn_take
        ⟨header, bs, _, rfl, hheader, rfl, rfl⟩ (hs.imp_right of_decide_eq_true))
  | .extension _, _, hs, (e : Extension), hx => by
      obtain ⟨header, hput, hheader⟩ := Put.extension_eq hx
      exact .of (.pair hput)
        (Get.findsOn_extension (hs.imp_right of_decide_eq_true) hheader)
  | .fixedExtension _, _, _, (e : FixedExtension _), hx => by
      obtain ⟨header, hput, hheader⟩ := Put.extension_eq hx
      exact .of (.pair hput) (Get.findsOn_fixedExtension kind e hheader)
  | .timestamp _, _, _, (t : Timestamp _), _ => by
      obtain ⟨b, rest, hput, hcode, hmark⟩ := Get.timestamp_eq t
      exact .of (.pair hput) (Get.findsOn_timestamp kind t hcode hmark)
  | .instant _, _, _, (t : Instant _), hx => by
      obtain ⟨header, content, hput, hfinds⟩ := Get.findsOn_instant kind t hx
      exact .of (.pair hput) hfinds
  | .value storage, _, hs, (v : OwnedValue), hx => by
      have hderives : Grammar.Derives Value.defaultDepth (v.tree.bytes .lossless) v := by
        have h : Grammar.Derives _ (v.tree.bytes .lossless) (v.tree.value .lossless) := hx.derives
        rwa [Value.value_tree (by decide)] at h
      refine .of (Value.writes_put v hx.short) ?_
      have hfinds := Storage.findsOn_value (hs.imp_right of_decide_eq_true) hderives
      cases storage <;> exact hfinds
  | .list s, h, hs, (_ : List s.Val), hx =>
      Schema.codec_list h ▸ .list hx.1 fun x hmem => s.returns h hs (hx.2 x hmem)
  | .map k v, h, hs, (_ : List (k.Val × v.Val)), hx => by
      have h' := Bool.and_eq_true_iff.mp h
      have hs' := or_and_left.mp (hs.imp_right Bool.and_eq_true_iff.mp)
      rw [Schema.codec_map h h'.1 h'.2]
      exact .map hx.1 hx.2.1 fun e hmem =>
        ⟨k.returns h'.1 hs'.1 (hx.2.2 e hmem).1, v.returns h'.2 hs'.2 (hx.2.2 e hmem).2⟩
  | .option _, h, hs, none, _ => Schema.codec_option h ▸ .none
  | .option s, h, hs, some x, hx => Schema.codec_option h ▸ .some (s.returns h hs hx.1) hx.2
  | .tuple r, h, hs, _, hx => Schema.codec_tuple h ▸ .tuple hx.1 (r.returns h hs hx.2)

theorem Row.returns {kind : SourceKind} : (r : Row) → (h : r.plain) →
    (kind = .memory ∨ r.owning) → {x : r.Val} → r.Admissible h x → (r.codec h).Returns kind x
  | .nil, _, _, _, _ => .nothing
  | .cons _ s rest, h, hs, (_, _), hx => by
      have h' := Bool.and_eq_true_iff.mp h
      have hs' := or_and_left.mp (hs.imp_right Bool.and_eq_true_iff.mp)
      rw [Row.codec_cons h h'.1 h'.2]
      exact (s.returns h'.1 hs'.1 hx.1).next (rest.returns h'.2 hs'.2 hx.2)

end

/-! ### Types that are never written as nil -/

/-- Whether some of the objects are written as nil, or as a value that may be
nil. -/
def Schema.nullable : Schema → Bool
  | .nil | .option _ | .value _ => true
  | _ => false

/-- Readers of the other schemas refuse nil, and the end of the input. -/
theorem Schema.decode_of_nil {s : Schema} (hs : s.nullable = false) (h : s.plain)
    {input : Bytes} (hinput : input = [] ∨ ∃ rest, input = 0xc0 :: rest) :
    ∃ e t, s.decode h (.ofBytes .memory input) = .error e t := by
  cases s with
  | nil => cases hs
  | option content => cases hs
  | value storage => cases hs
  | carried t => cases h
  | char => cases h
  | struct fields => cases h
  | variant alts => cases h
  -- the marker that is looked for depends on the type
  | int t initial => cases t <;> rcases hinput with rfl | ⟨rest, rfl⟩ <;> exact ⟨_, _, rfl⟩
  | float p => cases p <;> rcases hinput with rfl | ⟨rest, rfl⟩ <;> exact ⟨_, _, rfl⟩
  | timestamp l => cases l <;> rcases hinput with rfl | ⟨rest, rfl⟩ <;> exact ⟨_, _, rfl⟩
  | _ => rcases hinput with rfl | ⟨rest, rfl⟩ <;> exact ⟨_, _, rfl⟩

theorem Schema.notNil {s : Schema} (hs : s.nullable = false) (h : s.plain) {x : s.Val}
    (hx : s.Admissible h x) : (s.codec h).NotNil x := by
  have hfinds := (s.returns h (.inl rfl) hx).finds (.ofBytes .memory _) [] rfl
    (List.append_nil _).symm
  have hrefused : ∀ input, (input = [] ∨ ∃ rest, input = 0xc0 :: rest) →
      (s.codec h).bytes x ≠ input := by
    rintro _ hinput rfl
    obtain ⟨e, t, herror⟩ := s.decode_of_nil hs h hinput
    cases herror.symm.trans hfinds
  cases hbytes : (s.codec h).bytes x with
  | nil => exact absurd hbytes (hrefused [] (.inl rfl))
  | cons b rest =>
      refine ⟨b, rest, hbytes, ?_⟩
      rintro rfl
      exact hrefused _ (.inr ⟨rest, rfl⟩) hbytes

/-! ### Core types -/

namespace Codec

variable {kind : SourceKind}

/-- The codecs of core types, each with what its objects have to meet: those of
plain schemas, of the two headers by themselves, of containers of core types,
and of core types one after another, which is how they are concatenated. -/
inductive Core (kind : SourceKind) : {α : Type} → Codec α → (α → Prop) → Prop
  | schema {s : Schema} (h : s.plain) (hs : kind = .memory ∨ s.owning) :
      Core kind (s.codec h) (s.Admissible h)
  | arrayHeader : Core kind arrayHeader (· ≤ maxLength)
  | mapHeader : Core kind mapHeader (· ≤ maxLength)
  | list {α : Type} {c : Codec α} {P : α → Prop} (hc : Core kind c P) :
      Core kind c.list fun xs => xs.length ≤ maxLength ∧ ∀ x ∈ xs, P x
  | map {α β : Type} {k : Codec α} {v : Codec β} {P : α → Prop} {Q : β → Prop}
      (cmp : α → α → Ordering) (hk : Core kind k P) (hv : Core kind v Q) :
      Core kind (map cmp k v) fun es => es.length ≤ maxLength ∧
        es.Pairwise (fun e f => cmp f.1 e.1 = .gt) ∧ ∀ e ∈ es, P e.1 ∧ Q e.2
  | option {α : Type} {c : Codec α} {P : α → Prop} (hc : Core kind c P) :
      Core kind c.option fun x? => ∀ x ∈ x?, P x ∧ c.NotNil x
  | nothing : Core kind nothing fun _ => True
  | next {α β : Type} {c : Codec α} {d : Codec β} {P : α → Prop} {Q : β → Prop}
      (hc : Core kind c P) (hd : Core kind d Q) : Core kind (c.next d) fun x => P x.1 ∧ Q x.2
  | tuple {α : Type} {row : Codec α} {P : α → Prop} (n : Nat) (hrow : Core kind row P) :
      Core kind (row.tuple n) fun x => n ≤ maxLength ∧ P x

theorem Core.returns {α : Type} {c : Codec α} {P : α → Prop} (h : Core kind c P) {x : α}
    (hx : P x) : Returns kind c x := by
  induction h with
  | @schema s h hs => exact s.returns h hs hx
  | arrayHeader => exact .arrayHeader hx
  | mapHeader => exact .mapHeader hx
  | list hc ih => exact .list hx.1 fun x hmem => ih (hx.2 x hmem)
  | map cmp hk hv ihk ihv =>
      exact .map hx.1 hx.2.1 fun e hmem => ⟨ihk (hx.2.2 e hmem).1, ihv (hx.2.2 e hmem).2⟩
  | option hc ih =>
      cases x with
      | none => exact .none
      | some x => exact .some (ih (hx x rfl).1) (hx x rfl).2
  | nothing => exact .nothing
  | next hc hd ihc ihd => exact (ihc hx.1).next (ihd hx.2)
  | tuple n hrow ih => exact .tuple hx.1 (ih hx.2)

/-- Every object of a core type that meets what the type asks for is written as
some bytes: a buffer takes them, and wherever writing succeeds they are what was
added and their number is what is told. Read from these bytes and whatever
follows them, the object comes back, and what follows is left. Concatenations
are core types too, so that objects written one after another are read in
turn. -/
theorem Core.round_trip {α : Type} {c : Codec α} {P : α → Prop} (h : Core kind c P) {x : α}
    (hx : P x) :
    ∃ bs : Bytes,
      (∀ s : Sink, s.kind = .buffer → c.put x s = .ok bs.length (s.append bs)) ∧
      (∀ (s t : Sink) (n : Nat), c.put x s = .ok n t → n = bs.length ∧ t = s.append bs) ∧
      ∀ (rest : Bytes) (position : Nat),
        c.get { kind, left := bs ++ rest, position } =
          .ok x { kind, left := rest, position := position + bs.length } := by
  obtain ⟨hwrites, hfinds⟩ := h.returns hx
  refine ⟨c.bytes x, fun s hs => hwrites.buffer hs, fun s t n => hwrites.ok,
    fun rest position => ?_⟩
  rw [hfinds { kind, left := c.bytes x ++ rest, position } rest rfl rfl, Source.advance,
    List.drop_left]

/-- A list of texts that need not be there, each beside the header of an array,
read from memory that lends the texts. -/
theorem Core.round_trip_labels :
    let label : Codec Bytes := (Schema.text .borrowed []).codec rfl
    let c : Codec (List (Option Bytes × Nat)) := (label.option.next Codec.arrayHeader).list
    let x : List (Option Bytes × Nat) := [(some [0x6f, 0x6b], 17), (none, 3)]
    ∃ bs : Bytes,
      c.put x { kind := .buffer } =
        .ok bs.length (({ kind := .buffer } : Sink).append bs) ∧
      ∀ rest : Bytes, c.get (.ofBytes .memory (bs ++ rest)) =
        .ok x { kind := .memory, left := rest, position := bs.length } := by
  intro label c x
  have hlabel : (Schema.text .borrowed []).Admissible rfl [0x6f, 0x6b] := ⟨by decide, by decide⟩
  have hx : ∀ e ∈ x, (∀ bs ∈ e.1, (Schema.text .borrowed []).Admissible rfl bs ∧
      label.NotNil bs) ∧ e.2 ≤ maxLength := by
    intro e he
    rcases List.mem_pair.mp he with rfl | rfl
    · refine ⟨?_, by decide⟩
      rintro _ ⟨⟩
      exact ⟨hlabel, Schema.notNil rfl rfl hlabel⟩
    · exact ⟨fun bs h => absurd h (Option.not_mem_none bs), by decide⟩
  have hlabels : Core .memory label _ := .schema rfl (.inl rfl)
  obtain ⟨bs, hput, -, hget⟩ :=
    Core.round_trip (.list (.next (.option hlabels) .arrayHeader)) (x := x) ⟨by decide, hx⟩
  refine ⟨bs, hput _ rfl, fun rest => ?_⟩
  have hread := hget rest 0
  rw [Nat.zero_add] at hread
  exact hread

end Codec

end MsgPack
