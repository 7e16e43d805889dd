import MsgPack.Proofs.Schema.ByValue
import MsgPack.Proofs.Schema.Trimming

/-!
Unions are spelled in three ways: as the name of an alternative that carries
nothing, as a map of one entry from a name to what the alternative carries, or
as an array of these two. Whatever else comes is refused, and of what is
accepted nothing is left over.
-/

namespace MsgPack

open Cursor (Step Setting Readable inScope)
open Grammar (ArrayHeader MapHeader Derives DerivesElems DerivesEntries)

/-! ### Alternatives -/

namespace Alternatives

/-- An alternative of the name carries `c`, and `put` makes the union of it. -/
inductive Named : (a : Alternatives) → (name : Bytes) → (c : Content) → (c.Val → a.Val) → Prop
  | last {name : Bytes} {c : Content} : Named (.last name c) name c fun x => x
  | here {name : Bytes} {c : Content} {rest : Alternatives} :
      Named (.cons name c rest) name c fun x => .inl x
  | there {own name : Bytes} {other c : Content} {rest : Alternatives} {put : c.Val → rest.Val}
      (h : Named rest name c put) : Named (.cons own other rest) name c fun x => .inr (put x)

variable {a : Alternatives} {name : Bytes} {c : Content} {put : c.Val → a.Val}

theorem Named.mem (h : a.Named name c put) : name ∈ a.names := by
  induction h with
  | last => exact List.mem_singleton_self _
  | here => exact List.mem_cons_self
  | there _ ih => exact List.mem_cons_of_mem _ ih

/-- Where the names differ, each is looked up. -/
theorem Named.restore?_eq (h : a.Named name c put) (hnames : a.names.Nodup) (hasPayload : Bool) :
    a.restore? name hasPayload = some (do return put (← c.restore name hasPayload)) := by
  induction h with
  | last => exact (if_pos rfl).trans (congrArg some (return_id _).symm)
  | here => exact if_pos rfl
  | @there own name other c rest put h ih =>
      obtain ⟨hother, hrest⟩ := List.nodup_cons.mp hnames
      have hne : own ≠ name := fun heq => hother (heq ▸ h.mem)
      rw [restore?, if_neg hne, ih hrest]
      exact congrArg some (return_return _ put Sum.inr)

/-- What is looked up is an alternative of the name. -/
theorem exists_named {a : Alternatives} {hasPayload : Bool} {step : Step a.Val}
    (h : a.restore? name hasPayload = some step) :
    ∃ c put, a.Named name c put ∧ step = do return put (← c.restore name hasPayload) := by
  cases a with
  | last own c =>
      obtain ⟨rfl, hstep⟩ := Option.ite_none_right_eq_some.mp h
      exact ⟨c, _, .last, (Option.some.inj hstep).symm.trans (return_id _).symm⟩
  | cons own c rest =>
      rw [restore?] at h
      split at h
      · next heq =>
          subst heq
          exact ⟨c, _, .here, (Option.some.inj h).symm⟩
      · obtain ⟨inner, hinner, rfl⟩ := Option.map_eq_some_iff.mp h
        obtain ⟨c', put, hnamed, rfl⟩ := exists_named hinner
        exact ⟨c', _, .there hnamed, return_return _ put Sum.inr⟩

/-! ### Shapes -/

/-- What spells a union where `levels` more scopes may be open, and the union
that it spells. -/
inductive Spells (st : Setting) (a : Alternatives) : (levels : Nat) → Language a.Val
  | name {levels : Nat} {bs name : Bytes} {put : Unit → a.Val}
      (htext : Derives 0 bs (.string name)) (hname : a.Named name .unit put) :
      Spells st a levels bs (put ())
  | entry {levels : Nat} {header key payload name : Bytes} {s : Schema} {put : s.Val → a.Val}
      {x : s.Val} (hheader : MapHeader header 1) (hkey : Derives 0 key (.string name))
      (hname : a.Named name (.item s) put)
      (hpayload : st.Restores (s.restore s.fresh) levels payload x) :
      Spells st a (levels + 1) (header ++ (key ++ payload)) (put x)
  | pair {levels : Nat} {header key payload name : Bytes} {s : Schema} {put : s.Val → a.Val}
      {x : s.Val} (hheader : ArrayHeader header 2) (hkey : Derives 0 key (.string name))
      (hname : a.Named name (.item s) put)
      (hpayload : st.Restores (s.restore s.fresh) levels payload x) :
      Spells st a (levels + 1) (header ++ (key ++ payload)) (put x)

/-- The cursor in a container of two items, with the first one behind it. -/
def atPayload (c : Cursor) (kind : Container) (header key : Bytes) : Cursor :=
  c.moved (header.length + key.length)
    (.opened kind (c.lastId + 1) 1 :: c.frames.modifyHead Frame.stepped) (c.lastId + 1)

/-- The errors of what is no union. -/
inductive Refusal (a : Alternatives) (c : Cursor) (bs : Bytes) : Error → Prop
  | invalidData {e : Error} (h : e.kind = .invalidData) : Refusal a c bs e
  | unexpectedFormat {e : Error} (h : e.kind = .unexpectedFormat) : Refusal a c bs e
  /-- The payload of an entry or of a pair fails with the error. -/
  | payload {kind : Container} {header key payload name : Bytes} {s : Schema}
      {put : s.Val → a.Val} {e : Error} {t : Cursor} (hbs : bs = header ++ (key ++ payload))
      (hopening : kind.Opening header 2) (hkey : Derives 0 key (.string name))
      (hname : a.Named name (.item s) put)
      (hrun : s.restore s.fresh (atPayload c kind header key) = .error e t) : Refusal a c bs e
  /-- There is no level left for a container, whatever it holds. -/
  | tooDeep (hfull : c.maxDepth ≤ c.frames.length) :
      Refusal a c bs (.recursionLimit (.openScopes c.maxDepth))

/-- Either the bytes spell the union that is read, and no more than they is
consumed, or what comes is refused. -/
inductive Settled (a : Alternatives) (c : Cursor) (bs : Bytes) :
    EStateM.Result Error Cursor a.Val → Prop
  | read {x : a.Val} {id : Nat}
      (h : a.Spells ⟨c.policy, c.source.kind⟩ (c.maxDepth - c.frames.length) bs x) :
      Settled a c bs (.ok x (c.moved bs.length (c.frames.modifyHead Frame.stepped) id))
  | refused {e : Error} {t : Cursor} (h : a.Refusal c bs e) : Settled a c bs (.error e t)

end Alternatives

/-! ### Reading -/

section Reading

variable {α : Type} {alternative? : Bytes → Bool → Option (Step α)} {kind : Container}
  {c : Cursor} {outer : List Frame} {depth key n : Nat} {bs rest name : Bytes} {v : OwnedValue}

namespace Cursor

theorem text_of_derives (hreadable : Readable c.frames) (hbs : Derives depth bs (.string name))
    (hl : c.source.left = bs ++ rest) :
    text .owned c = .ok name (c.moved bs.length (c.frames.modifyHead Frame.stepped) c.lastId) := by
  cases hbs with
  | string hheader hvalid =>
      exact leaf_of_ok hreadable (Get.lends_text.findsOn_take
        ⟨_, name, _, rfl, hheader, ⟨rfl, rfl⟩, hvalid⟩ (.inr rfl) c.source rest rfl hl)

theorem text_of_other (hreadable : Readable c.frames) (hbs : Derives depth bs v)
    (hv : v.entity ≠ .string) (hl : c.source.left = bs ++ rest) :
    ∃ e t, text .owned c = .error e t ∧ e.kind = .unexpectedFormat := by
  obtain ⟨b, tail, rfl, he⟩ := begins_of_derives hbs
  obtain ⟨e, t, hrun, hkind⟩ :=
    ((Get.refuses_textHeader.bind _).bind _) c.source b (tail ++ rest) _ hl he hv
  exact ⟨e, _, leaf_of_error hreadable hrun, hkind⟩

end Cursor

/-- The first of two items may be read, and one is left behind it. -/
theorem announceName_of_frames (hframes : c.frames = .opened kind key 2 :: outer) :
    ∃ f, announceName kind c = .ok () { c with frames := f :: outer } ∧ Readable (f :: outer) ∧
      f.stepped = .opened kind key 1 := by
  cases kind with
  | map =>
      exact ⟨Cursor.announced key 0, Cursor.announceKey_of_frames hframes,
        Cursor.readable_announced key 0 outer, Cursor.stepped_announced key 0⟩
  | array =>
      refine ⟨.opened .array key 2, ?_, Cursor.readable_array key 1 outer, rfl⟩
      rw [← hframes]
      rfl

theorem readable_last (kind : Container) (key : Nat) (outer : List Frame) :
    Readable (.opened kind key 1 :: outer) := by
  cases kind with
  | map => exact Cursor.readable_odd key 0 outer
  | array => exact Cursor.readable_array key 0 outer

theorem stepped_last (kind : Container) (key : Nat) :
    (Frame.opened kind key 1).stepped = .opened kind key 0 := by
  cases kind with
  | map => exact Cursor.stepped_odd key 0
  | array => rfl

/-- Where there are two items, the first one is read as a text. -/
theorem unionIn_of_pair (hframes : c.frames = .opened kind key 2 :: outer) :
    unionIn alternative? kind c =
      (do
        announceName kind
        payloadOf alternative? (← Cursor.text .owned)) c :=
  (bind_of_ok (Cursor.elemLeft_of_frames hframes)).trans
    (congrFun (if_neg (not_not_intro rfl)) c)

/-- The name is read, and then what it leads to. -/
theorem unionIn_of_name (hframes : c.frames = .opened kind key 2 :: outer)
    (hbs : Derives depth bs (.string name)) (hl : c.source.left = bs ++ rest) :
    unionIn alternative? kind c =
      payloadOf alternative? name
        (c.moved bs.length (.opened kind key 1 :: outer) c.lastId) := by
  obtain ⟨f, hannounce, hreadable, hstepped⟩ := announceName_of_frames hframes
  have hname : Cursor.text .owned { c with frames := f :: outer } =
      .ok name (c.moved bs.length (f.stepped :: outer) c.lastId) :=
    Cursor.text_of_derives hreadable hbs hl
  rw [unionIn_of_pair hframes, bind_of_ok hannounce, bind_of_ok hname, hstepped]

/-- What stands for a name has to be a text. -/
theorem unionIn_of_other (hframes : c.frames = .opened kind key 2 :: outer)
    (hbs : Derives depth bs v) (hv : v.entity ≠ .string) (hl : c.source.left = bs ++ rest) :
    ∃ e t, unionIn alternative? kind c = .error e t ∧ e.kind = .unexpectedFormat := by
  obtain ⟨f, hannounce, hreadable, -⟩ := announceName_of_frames hframes
  obtain ⟨e, t, hname, hkind⟩ :=
    Cursor.text_of_other (c := { c with frames := f :: outer }) hreadable hbs hv hl
  exact ⟨e, t, by rw [unionIn_of_pair hframes, bind_of_ok hannounce, bind_of_error hname], hkind⟩

/-- There have to be two items. -/
theorem unionIn_of_count (hframes : c.frames = .opened kind key n :: outer) (hn : n ≠ 2) :
    unionIn alternative? kind c = .error (.invalidData (miscount kind n)) c :=
  (bind_of_ok (Cursor.elemLeft_of_frames hframes)).trans (congrFun (if_pos hn) c)

theorem unionOf_container (alternative? : Bytes → Bool → Option (Step α)) (kind : Container) :
    unionOf alternative? kind.entity = inScope kind (unionIn alternative? kind) := by
  cases kind <;> rfl

/-- In a union that is a container, the name decides how its payload is read. -/
theorem inScope_of_name {header : Bytes} (hreadable : Readable c.frames)
    (hroom : c.frames.length < c.maxDepth) (hopening : kind.Opening header 2)
    (hbs : Derives depth bs (.string name)) (hl : c.source.left = header ++ (bs ++ rest)) :
    inScope kind (unionIn alternative? kind) c =
      (do
        let x ← payloadOf alternative? name
        Cursor.endScope kind ↑(c.lastId + 1)
        return x) (Alternatives.atPayload c kind header bs) := by
  have hbegin := Cursor.beginScope_of_room hopening hreadable hl hroom
  have hname : unionIn alternative? kind (c.moved header.length
      (.opened kind (c.lastId + 1) 2 :: c.frames.modifyHead Frame.stepped) (c.lastId + 1)) =
        payloadOf alternative? name (Alternatives.atPayload c kind header bs) := by
    rw [unionIn_of_name rfl hbs (Source.left_advance_length hl), Cursor.moved_moved]
    rfl
  rw [inScope, bind_of_ok hbegin, bind_apply, hname, ← bind_apply]

end Reading

/-! ### Unions -/

namespace Schema

variable {a : Alternatives} {c : Cursor} {depth : Nat} {bs rest name : Bytes} {v : OwnedValue}

theorem restore_variant_of_begins {e : EntityType} (x : a.Val) (he : Begins bs e)
    (hl : c.source.left = bs ++ rest) :
    (Schema.variant a).restore x c = unionOf a.restore? e c := by
  show restoreVariant a.restore? c = _
  rw [restoreVariant_eq, bind_of_ok (Cursor.typeNext_of_begins he hl)]

section Payload

variable {kind : Container} {header key payload : Bytes} {s : Schema} {put : s.Val → a.Val}

theorem payloadOf_of_item (hnames : a.names.Nodup) (hname : a.Named name (.item s) put) :
    payloadOf a.restore? name = do return put (← s.restore s.fresh) := by
  rw [payloadOf, hname.restore?_eq hnames]
  rfl

theorem moved_payload (c : Cursor) (kind : Container) (header key payload : Bytes)
    (fs : List Frame) (id : Nat) :
    (Alternatives.atPayload c kind header key).moved payload.length fs id =
      c.moved (header ++ (key ++ payload)).length fs id := by
  rw [Alternatives.atPayload, Cursor.moved_moved, List.length_append, List.length_append,
    Nat.add_assoc]

/-- Where the payload is read, its scope is closed behind it. -/
theorem union_of_payload (hnames : a.names.Nodup) (hname : a.Named name (.item s) put) {y : s.Val}
    {id : Nat} (hrun : s.restore s.fresh (Alternatives.atPayload c kind header key) =
      .ok y (c.moved (header ++ (key ++ payload)).length
        (.opened kind (c.lastId + 1) 0 :: c.frames.modifyHead Frame.stepped) id)) :
    (do
      let x ← payloadOf a.restore? name
      Cursor.endScope kind ↑(c.lastId + 1)
      return x) (Alternatives.atPayload c kind header key) =
      .ok (put y) (c.moved (header ++ (key ++ payload)).length
        (c.frames.modifyHead Frame.stepped) id) := by
  rw [payloadOf_of_item hnames hname, bind_assoc, bind_of_ok hrun, pure_bind,
    bind_of_ok (Cursor.endScope_of_frames rfl)]
  rfl

/-- An entry or a pair whose payload can be read by itself is read. -/
theorem restore_of_pair {levels : Nat} {y : s.Val} (hnames : a.names.Nodup)
    (hlevels : c.maxDepth - c.frames.length = levels + 1) (hopening : kind.Opening header 2)
    (hkey : Derives 0 key (.string name)) (hname : a.Named name (.item s) put)
    (hpayload : Setting.Restores ⟨c.policy, c.source.kind⟩ (s.restore s.fresh) levels payload y)
    (hreadable : Readable c.frames) (hl : c.source.left = header ++ (key ++ payload) ++ rest)
    (x : a.Val) :
    ∃ id, (Schema.variant a).restore x c =
      .ok (put y) (c.moved (header ++ (key ++ payload)).length
        (c.frames.modifyHead Frame.stepped) id) := by
  have hl' : c.source.left = header ++ (key ++ (payload ++ rest)) := by
    simp only [hl, List.append_assoc]
  have hready : Setting.Ready ⟨c.policy, c.source.kind⟩ (Alternatives.atPayload c kind header key)
      (.opened kind (c.lastId + 1) 1 :: c.frames.modifyHead Frame.stepped) levels
      (payload ++ rest) := by
    refine ⟨rfl, rfl, rfl, ?_, ?_⟩
    · show (c.frames.modifyHead Frame.stepped).length + 1 + levels ≤ c.maxDepth
      rw [Cursor.length_modifyHead]
      omega
    · show c.source.left.drop (header.length + key.length) = payload ++ rest
      rw [hl', ← List.append_assoc, ← List.length_append, List.drop_left]
  obtain ⟨id, hrun⟩ := Setting.Element.of_restores (fun _ => s.portable_restore s.fresh) hpayload _
    (readable_last kind _ _) _ rest hready
  rw [moved_payload, List.modifyHead_cons, stepped_last] at hrun
  refine ⟨id, ?_⟩
  rw [restore_variant_of_begins x (hopening.begins.append _) hl, unionOf_container,
    inScope_of_name hreadable (by omega) hopening hkey hl']
  exact union_of_payload hnames hname hrun

/-- What is left of an entry or a pair that is read in place spells its payload. -/
theorem spells_of_restore {y : s.Val} {t : Cursor} (hroom : c.frames.length < c.maxDepth)
    (hopening : kind.Opening header 2) (hkey : Derives 0 key (.string name))
    (hname : a.Named name (.item s) put) (hpayload : Derives depth payload v)
    (hl : c.source.left = header ++ (key ++ (payload ++ rest)))
    (hrun : s.restore s.fresh (Alternatives.atPayload c kind header key) = .ok y t) :
    a.Spells ⟨c.policy, c.source.kind⟩ (c.maxDepth - c.frames.length)
        (header ++ (key ++ payload)) (put y) ∧
      ∃ id, t = c.moved (header ++ (key ++ payload)).length
        (.opened kind (c.lastId + 1) 0 :: c.frames.modifyHead Frame.stepped) id := by
  have hleft : (Alternatives.atPayload c kind header key).source.left = payload ++ rest := by
    show c.source.left.drop (header.length + key.length) = payload ++ rest
    rw [hl, ← List.append_assoc, ← List.length_append, List.drop_left]
  have hreadable : Readable (Alternatives.atPayload c kind header key).frames :=
    readable_last kind _ _
  obtain ⟨n, rfl, hn, -⟩ := Node.of_derives hpayload
  have hrestores := restores_of_restore hn hreadable hleft hrun
  obtain ⟨id, rfl⟩ := moved_of_restore hn hreadable hleft hrun
  have hlevels : c.maxDepth - c.frames.length = c.maxDepth - (c.frames.length + 1) + 1 := by omega
  have hinside : (Alternatives.atPayload c kind header key).maxDepth -
      (Alternatives.atPayload c kind header key).frames.length =
        c.maxDepth - (c.frames.length + 1) := by
    show c.maxDepth - ((c.frames.modifyHead Frame.stepped).length + 1) = _
    rw [Cursor.length_modifyHead]
  rw [hinside] at hrestores
  refine ⟨?_, id, ?_⟩
  · rw [hlevels]
    cases kind with
    | map =>
        obtain ⟨entries, hheader, hentries⟩ := hopening
        obtain rfl : entries = 1 := Nat.eq_of_mul_eq_mul_left Nat.two_pos hentries.symm
        exact .entry hheader hkey hname hrestores
    | array => exact .pair hopening hkey hname hrestores
  · rw [moved_payload]
    show Cursor.moved _ _ ((Frame.opened kind (c.lastId + 1) 1).stepped :: _) _ = _
    rw [stepped_last]

/-- An entry or a pair is read if its name is known and its payload can be read by
itself, and else refused. -/
theorem settled_pair (hnames : a.names.Nodup) (hroom : c.frames.length < c.maxDepth)
    (hopening : kind.Opening header 2) (hkey : Derives 0 key (.string name))
    (hpayload : Derives depth payload v) (hreadable : Readable c.frames)
    (hl : c.source.left = header ++ (key ++ (payload ++ rest))) :
    a.Settled c (header ++ (key ++ payload)) (inScope kind (unionIn a.restore? kind) c) := by
  rw [inScope_of_name hreadable hroom hopening hkey hl]
  cases hstep : a.restore? name true with
  | none =>
      have hrun : payloadOf a.restore? name (Alternatives.atPayload c kind header key) =
          .error (.invalidData (.unknownVariant name))
            (Alternatives.atPayload c kind header key) := by
        rw [payloadOf, hstep]
        rfl
      rw [bind_of_error hrun]
      exact .refused (.invalidData rfl)
  | some step =>
      obtain ⟨content, put, hname, rfl⟩ := Alternatives.exists_named hstep
      cases content with
      | unit =>
          have hrun : payloadOf a.restore? name (Alternatives.atPayload c kind header key) =
              .error (.invalidData (.unitPayload name))
                (Alternatives.atPayload c kind header key) := by
            rw [payloadOf, hstep]
            rfl
          rw [bind_of_error hrun]
          exact .refused (.invalidData rfl)
      | item s =>
          cases hrun : s.restore s.fresh (Alternatives.atPayload c kind header key) with
          | error e t =>
              rw [payloadOf_of_item hnames hname, bind_assoc, bind_of_error hrun]
              exact .refused (.payload rfl hopening hkey hname hrun)
          | ok y t =>
              obtain ⟨hspells, id, rfl⟩ :=
                spells_of_restore hroom hopening hkey hname hpayload hl hrun
              rw [union_of_payload hnames hname hrun]
              exact .read hspells

end Payload

/-- What spells a union is read. -/
theorem restore_of_spells (hnames : a.names.Nodup) {y : a.Val}
    (h : a.Spells ⟨c.policy, c.source.kind⟩ (c.maxDepth - c.frames.length) bs y)
    (hreadable : Readable c.frames) (hl : c.source.left = bs ++ rest) (x : a.Val) :
    ∃ id, (Schema.variant a).restore x c =
      .ok y (c.moved bs.length (c.frames.modifyHead Frame.stepped) id) := by
  generalize hlevels : c.maxDepth - c.frames.length = levels at h
  cases h with
  | @name _ _ name put htext hname =>
      have hbegins : Begins bs .string := begins_of_derives htext
      rw [restore_variant_of_begins x hbegins hl, unionOf,
        bind_of_ok (Cursor.text_of_derives hreadable htext hl), nameOf, hname.restore?_eq hnames]
      exact ⟨_, rfl⟩
  | @entry _ header _ _ _ _ _ _ hheader hkey hname hpayload =>
      have hopening : Container.map.Opening header 2 := ⟨1, hheader, rfl⟩
      exact restore_of_pair hnames hlevels hopening hkey hname hpayload hreadable hl x
  | @pair _ header _ _ _ _ _ _ hheader hkey hname hpayload =>
      have hopening : Container.array.Opening header 2 := hheader
      exact restore_of_pair hnames hlevels hopening hkey hname hpayload hreadable hl x

/-! ### What else may come -/

/-- A name takes no levels. -/
theorem derives_name (h : Derives depth bs (.string name)) : Derives 0 bs (.string name) := by
  cases h with
  | string hheader hvalid => exact .string hheader hvalid

theorem elems_of_entries {es : List (OwnedValue × OwnedValue)} (h : DerivesEntries depth bs es) :
    ∃ vs, vs.length = 2 * es.length ∧ DerivesElems depth bs vs := by
  induction es generalizing bs with
  | nil =>
      cases h
      exact ⟨[], rfl, .nil⟩
  | cons e es ih =>
      obtain ⟨k, v⟩ := e
      cases h with
      | cons hk hv hes =>
          obtain ⟨vs, hlen, hvs⟩ := ih hes
          refine ⟨k :: v :: vs, ?_, .cons hk (.cons hv hvs)⟩
          simp only [List.length_cons, hlen]
          omega

/-- The items of a container, which in a map are its keys and values. -/
theorem items_of_derives {kind : Container} (h : Derives depth bs v) (hv : v.entity = kind.entity) :
    ∃ header body inside vs, bs = header ++ body ∧ kind.Opening header vs.length ∧
      DerivesElems inside body vs := by
  cases kind with
  | array =>
      obtain ⟨vs, rfl⟩ := Value.exists_array hv
      cases h with
      | array hheader helems => exact ⟨_, _, _, vs, rfl, hheader, helems⟩
  | map =>
      obtain ⟨es, rfl⟩ := Value.exists_map hv
      cases h with
      | map hheader hentries =>
          obtain ⟨vs, hlen, hvs⟩ := elems_of_entries hentries
          exact ⟨_, _, _, vs, rfl, ⟨_, hheader, hlen⟩, hvs⟩

/-- Two items are an entry or a pair, whose first one has to be a name. -/
theorem settled_two {kind : Container} {header key payload : Bytes} {k w : OwnedValue}
    (hnames : a.names.Nodup) (hroom : c.frames.length < c.maxDepth)
    (hopening : kind.Opening header 2) (hkey : Derives depth key k)
    (hpayload : Derives depth payload w) (hreadable : Readable c.frames)
    (hl : c.source.left = header ++ (key ++ (payload ++ rest))) :
    a.Settled c (header ++ (key ++ payload)) (inScope kind (unionIn a.restore? kind) c) := by
  by_cases hk : k.entity = .string
  · obtain ⟨name, rfl⟩ := Value.exists_string hk
    exact settled_pair hnames hroom hopening (derives_name hkey) hpayload hreadable hl
  · have hbegin := Cursor.beginScope_of_room hopening hreadable hl hroom
    have hother : ∃ e t, unionIn a.restore? kind (c.moved header.length
        (.opened kind (c.lastId + 1) 2 :: c.frames.modifyHead Frame.stepped) (c.lastId + 1)) =
          .error e t ∧ e.kind = .unexpectedFormat :=
      unionIn_of_other rfl hkey hk (Source.left_advance_length hl)
    obtain ⟨e, t, hrun, hkind⟩ := hother
    rw [inScope, bind_of_ok hbegin, bind_of_error hrun]
    exact .refused (.unexpectedFormat hkind)

theorem settled_container (kind : Container) (hnames : a.names.Nodup) (hbs : Derives depth bs v)
    (hv : v.entity = kind.entity) (hreadable : Readable c.frames)
    (hl : c.source.left = bs ++ rest) :
    a.Settled c bs (inScope kind (unionIn a.restore? kind) c) := by
  obtain ⟨header, body, inside, vs, rfl, hopening, hvs⟩ := items_of_derives hbs hv
  rw [List.append_assoc] at hl
  by_cases hroom : c.frames.length < c.maxDepth
  · have hbegin := Cursor.beginScope_of_room hopening hreadable hl hroom
    by_cases hcount : vs.length = 2
    · obtain ⟨k, w, rfl⟩ := List.length_eq_two.mp hcount
      cases hvs with
      | cons hk htail =>
          cases htail with
          | cons hw hnil =>
              cases hnil
              rw [List.append_nil, List.append_assoc] at hl
              rw [List.append_nil]
              exact settled_two hnames hroom hopening hk hw hreadable hl
    · have hcounted : unionIn a.restore? kind (c.moved header.length
          (.opened kind (c.lastId + 1) vs.length :: c.frames.modifyHead Frame.stepped)
          (c.lastId + 1)) = .error (.invalidData (miscount kind vs.length)) _ :=
        unionIn_of_count rfl hcount
      rw [inScope, bind_of_ok hbegin, bind_of_error hcounted]
      exact .refused (.invalidData rfl)
  · have hfull := Nat.le_of_not_lt hroom
    obtain ⟨t, hbegin⟩ : ∃ t, Cursor.beginScope kind c =
        .error (.recursionLimit (.openScopes c.maxDepth)) t :=
      ⟨_, (Cursor.beginScope_of_opening hopening hreadable hl).trans
        (Cursor.pushFrame_of_full kind _ ((Cursor.length_modifyHead ..).symm ▸ hfull))⟩
    rw [inScope, bind_of_error hbegin]
    exact .refused (.tooDeep hfull)

theorem settled_name (hbs : Derives 0 bs (.string name)) (hreadable : Readable c.frames)
    (hl : c.source.left = bs ++ rest) :
    a.Settled c bs (unionOf a.restore? .string c) := by
  rw [unionOf, bind_of_ok (Cursor.text_of_derives hreadable hbs hl), nameOf]
  cases hstep : a.restore? name false with
  | none => exact .refused (.invalidData rfl)
  | some step =>
      obtain ⟨content, put, hname, rfl⟩ := Alternatives.exists_named hstep
      cases content with
      | unit => exact .read (.name hbs hname)
      | item s => exact .refused (.invalidData rfl)

/-- Every value is a union or refused. -/
theorem settled_restore (hnames : a.names.Nodup) (hbs : Derives depth bs v)
    (hreadable : Readable c.frames) (hl : c.source.left = bs ++ rest) (x : a.Val) :
    a.Settled c bs ((Schema.variant a).restore x c) := by
  rw [restore_variant_of_begins x (begins_of_derives hbs) hl]
  cases hv : v.entity with
  | string =>
      obtain ⟨name, rfl⟩ := Value.exists_string hv
      exact settled_name (derives_name hbs) hreadable hl
  | map => exact settled_container .map hnames hbs hv hreadable hl
  | array => exact settled_container .array hnames hbs hv hreadable hl
  | _ => exact .refused (.unexpectedFormat rfl)

/-- What is read as a union are its three shapes and nothing else. Let any value
come next where an element may be read, for a union whose alternatives have
different names. It is read exactly if it is the name of an alternative that
carries nothing, or a map of one entry or an array of two elements, of which the
first is the name of an alternative and the second can be read as what that
carries; what is made of the second is the same for a map and an array. The
value is consumed and nothing else, and the scopes are as they were. Of the
others each fails with invalid data or an unexpected format or the error of its
payload, if there is a level left for its scope. -/
theorem restore_variant_iff_spells (hnames : a.names.Nodup) (hbs : Derives depth bs v)
    (hreadable : Readable c.frames) (hl : c.source.left = bs ++ rest) (x : a.Val) :
    let run := (Schema.variant a).restore x c
    (∀ y, (∃ t, run = .ok y t) ↔
      a.Spells ⟨c.policy, c.source.kind⟩ (c.maxDepth - c.frames.length) bs y) ∧
    (∀ y t, run = .ok y t →
      ∃ id, t = c.moved bs.length (c.frames.modifyHead Frame.stepped) id) ∧
    ∀ e t, run = .error e t → a.Refusal c bs e := by
  intro run
  have hsettled : a.Settled c bs run := settled_restore hnames hbs hreadable hl x
  refine ⟨fun y => ⟨fun hread => ?_, fun hspells => ?_⟩, fun y t hrun => ?_, fun e t hrun => ?_⟩
  · obtain ⟨t, hrun⟩ := hread
    rw [hrun] at hsettled
    cases hsettled with
    | read hspells => exact hspells
  · obtain ⟨id, hrun⟩ := restore_of_spells hnames hspells hreadable hl x
    exact ⟨_, hrun⟩
  · rw [hrun] at hsettled
    cases hsettled with
    | read _ => exact ⟨_, rfl⟩
  · rw [hrun] at hsettled
    cases hsettled with
    | refused hrefusal => exact hrefusal

/-- A lamp is off, or lit to some degree. -/
def lamp : Alternatives := .cons [0x6f] .unit (.last [0x6c] (.item (.intZero .u8)))

/-- A lit lamp, as an entry and as a pair, with one more byte behind it. -/
theorem restore_variant_iff_spells_lamp :
    let c (input : Bytes) : Cursor :=
      { maxDepth := 1, source := .ofBytes .stream (input ++ [0xc0]) }
    let lit : lamp.Val := .inr (IntType.u8.wrap 7)
    let degree : OwnedValue := .number (.int ⟨7, by decide⟩)
    lamp.names.Nodup ∧ Readable [] ∧
      Derives 1 [0x81, 0xa1, 0x6c, 7] (.map [(.string [0x6c], degree)]) ∧
      (∃ t, (Schema.variant lamp).restore lamp.fresh (c [0x81, 0xa1, 0x6c, 7]) = .ok lit t) ∧
      Derives 1 [0x92, 0xa1, 0x6c, 7] (.array [.string [0x6c], degree]) ∧
      ∃ t, (Schema.variant lamp).restore lamp.fresh (c [0x92, 0xa1, 0x6c, 7]) = .ok lit t := by
  intro c lit degree
  have hnames : lamp.names.Nodup := by decide
  have hone : MapHeader [0x81] 1 := .fixed (by decide)
  have htwo : ArrayHeader [0x92] 2 := .fixed (by decide)
  have htext : Grammar.TextHeader [0xa1] 1 := .fixed (by decide)
  have hkey : Derives 0 ([0xa1] ++ [0x6c]) (.string [0x6c]) := .string htext rfl
  have hdegree : Derives 0 [7] degree := .number (.positiveFixint (n := 7) (by decide) rfl)
  have hentry : Derives 1 [0x81, 0xa1, 0x6c, 7] (.map [(.string [0x6c], degree)]) :=
    .map hone (.cons hkey hdegree .nil)
  have hpair : Derives 1 [0x92, 0xa1, 0x6c, 7] (.array [.string [0x6c], degree]) :=
    .array htwo (.cons hkey (.cons hdegree .nil))
  have hname : lamp.Named [0x6c] (.item (.intZero .u8)) .inr := .there .last
  have hpayload : Setting.Restores ⟨.widening, .stream⟩
      ((Schema.intZero .u8).restore (Schema.intZero .u8).fresh) 0 [7] (IntType.u8.wrap 7) :=
    ⟨_, rfl, rfl⟩
  obtain ⟨hentries, -⟩ := restore_variant_iff_spells (c := c [0x81, 0xa1, 0x6c, 7]) hnames hentry
    trivial rfl lamp.fresh
  obtain ⟨hpairs, -⟩ := restore_variant_iff_spells (c := c [0x92, 0xa1, 0x6c, 7]) hnames hpair
    trivial rfl lamp.fresh
  exact ⟨hnames, trivial, hentry, (hentries lit).mpr (.entry hone hkey hname hpayload), hpair,
    (hpairs lit).mpr (.pair htwo hkey hname hpayload)⟩

end Schema

end MsgPack
