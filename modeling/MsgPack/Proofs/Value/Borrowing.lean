import MsgPack.Proofs.Cursor.Relocating
import MsgPack.Proofs.Value.Course
import MsgPack.Proofs.Value.Scanning

/-!
A value that borrows its byte content and a value that owns it are the same
value. They are turned into each other, compared alike and written alike. From
memory they are read alike, failures included. A stream lends nothing, and what
is read of one borrowed is what is read of it owned, as far as there is nothing
in it to borrow.
-/

namespace MsgPack

namespace Value

variable {β γ δ : Type}

/-! ### Content replaced -/

section Content

variable (f : β → γ) (g : γ → δ)

mutual

theorem mapContent_mapContent (v : Value β) :
    (v.mapContent f).mapContent g = v.mapContent (g ∘ f) := by
  cases v with
  | array elems => simp only [mapContent, mapElems_mapElems]
  | map entries => simp only [mapContent, mapEntries_mapEntries]
  | _ => rfl

theorem mapElems_mapElems (vs : List (Value β)) :
    mapElems g (mapElems f vs) = mapElems (g ∘ f) vs := by
  cases vs with
  | nil => rfl
  | cons v vs => simp only [mapElems, mapContent_mapContent v, mapElems_mapElems vs]

theorem mapEntries_mapEntries (es : List (Value β × Value β)) :
    mapEntries g (mapEntries f es) = mapEntries (g ∘ f) es := by
  cases es with
  | nil => rfl
  | cons e es =>
      simp only [mapEntries, mapContent_mapContent e.1, mapContent_mapContent e.2,
        mapEntries_mapEntries es]

end

variable {f} (eq : γ → γ → Bool)

mutual

/-- Values are compared by what their content is mapped to. -/
theorem beq_mapContent (v w : Value β) :
    beq eq (v.mapContent f) (w.mapContent f) = beq (fun a b => eq (f a) (f b)) v w := by
  cases v <;> cases w <;> simp only [mapContent, beq, beqElems_mapElems, beqEntries_mapEntries]

theorem beqElems_mapElems (vs ws : List (Value β)) :
    beqElems eq (mapElems f vs) (mapElems f ws) = beqElems (fun a b => eq (f a) (f b)) vs ws := by
  cases vs <;> cases ws <;> simp only [mapElems, beqElems, beq_mapContent, beqElems_mapElems]

theorem beqEntries_mapEntries (ds es : List (Value β × Value β)) :
    beqEntries eq (mapEntries f ds) (mapEntries f es) =
      beqEntries (fun a b => eq (f a) (f b)) ds es := by
  cases ds <;> cases es <;>
    simp only [mapEntries, beqEntries, beq_mapContent, beqEntries_mapEntries]

end

end Content

/-! ### Owning and borrowing -/

theorem toOwned_asRef (v : OwnedValue) : v.asRef.toOwned = v := by
  rw [asRef, toOwned, mapContent_mapContent]
  have hshown : ByteView.toBytes ∘ ByteView.ofBytes = id := funext ByteView.toBytes_ofBytes
  rw [hshown, mapContent_id]

theorem asRef_toOwned (r : ValueRef) :
    r.toOwned.asRef = r.mapContent fun w => .ofBytes w.toBytes :=
  mapContent_mapContent ByteView.toBytes ByteView.ofBytes r

/-- Values that borrow are equal if the copies of them are. -/
theorem beq_toOwned (r q : ValueRef) : (r.toOwned == q.toOwned) = (r == q) :=
  beq_mapContent (f := ByteView.toBytes) (· == ·) r q

section Put

variable [ByteContent β] [ByteContent γ] {f : β → γ} (policy : EncodePolicy)

mutual

/-- Values are written by the bytes that their content consists of. -/
theorem put_mapContent (hf : ∀ c, ByteContent.bytes (f c) = ByteContent.bytes c) (v : Value β) :
    put policy (v.mapContent f) = put policy v := by
  cases v with
  | array elems =>
      simp only [mapContent, put, mapElems_eq, List.length_map]
      simp only [← mapElems_eq, putElems_mapElems hf]
  | map entries =>
      simp only [mapContent, put, mapEntries_eq, List.length_map]
      simp only [← mapEntries_eq, putEntries_mapEntries hf]
  | _ => simp only [mapContent, put, hf]

theorem putElems_mapElems (hf : ∀ c, ByteContent.bytes (f c) = ByteContent.bytes c)
    (vs : List (Value β)) (written : Nat) :
    putElems policy (mapElems f vs) written = putElems policy vs written := by
  cases vs with
  | nil => rfl
  | cons v vs => simp only [mapElems, putElems, put_mapContent hf v, putElems_mapElems hf vs]

theorem putEntries_mapEntries (hf : ∀ c, ByteContent.bytes (f c) = ByteContent.bytes c)
    (es : List (Value β × Value β)) (written : Nat) :
    putEntries policy (mapEntries f es) written = putEntries policy es written := by
  cases es with
  | nil => rfl
  | cons e es =>
      simp only [mapEntries, putEntries, put_mapContent hf e.1, put_mapContent hf e.2,
        putEntries_mapEntries hf es]

end

end Put

/-! ### Values without content -/

mutual

/-- Whether there is neither a string nor a binary nor an extension anywhere in
a value, not even an empty one. -/
def bare : Value β → Bool
  | nil | bool _ | number _ => true
  | string _ | binary _ | extension .. => false
  | array elems => bareElems elems
  | map entries => bareEntries entries

def bareElems : List (Value β) → Bool
  | [] => true
  | v :: vs => v.bare && bareElems vs

def bareEntries : List (Value β × Value β) → Bool
  | [] => true
  | (k, v) :: es => k.bare && v.bare && bareEntries es

end

theorem bareElems_iff {vs : List (Value β)} : bareElems vs ↔ ∀ v ∈ vs, v.bare := by
  induction vs with
  | nil => simp [bareElems]
  | cons v vs ih => simp [bareElems, ih]

theorem bareEntries_iff {es : List (Value β × Value β)} :
    bareEntries es ↔ ∀ e ∈ es, e.1.bare ∧ e.2.bare := by
  induction es with
  | nil => simp [bareEntries]
  | cons e es ih => simp [bareEntries, ih, and_assoc]

end Value

/-! ### Two readers -/

namespace Get

variable {α β : Type}

/-- What the reader leaves is a source of the kind that it found. -/
def KeepsSource (g : Get α) : Prop := ∀ (s t : Source) (a : α), g s = .ok a t → t.kind = s.kind

theorem Accepts.keepsSource {g : Get α} {L : Language α} (h : Accepts g L) : KeepsSource g := by
  intro s t a hg
  obtain ⟨bs, rest, -, -, rfl⟩ := h.sound hg
  rfl

theorem Lends.keepsSource {g : Get Payload} {L : Language Bytes} (h : Lends g L) :
    KeepsSource g := by
  intro s t p hg
  obtain ⟨bs, rest, -, -, rfl⟩ := h.sound hg
  rfl

theorem keepsSource_pure (a : α) : KeepsSource (pure a) := by
  rintro s t b ⟨⟩
  rfl

theorem keepsSource_marker : KeepsSource marker := fun s t m h =>
  congrArg Source.kind (still_marker s t m h)

theorem KeepsSource.bind {g : Get α} {k : α → Get β} (h : KeepsSource g)
    (hk : ∀ a, KeepsSource (k a)) : KeepsSource (g >>= k) := by
  intro s t b hrun
  obtain ⟨a, u, hg, hrest⟩ := bind_eq_ok_iff.mp hrun
  rw [hk a u t b hrest, h s u a hg]

theorem keepsSource_byte : KeepsSource byte := by
  intro s t b hrun
  cases hl : s.left with
  | nil =>
      obtain ⟨e, u, hpeek⟩ := peek_nil hl
      cases (bind_of_error hpeek).symm.trans hrun
  | cons first rest =>
      cases (byte_cons hl).symm.trans hrun
      rfl

/-- The readers do the same on memory. On a stream `g` succeeds where `g'` does
so with an answer of which `p` holds. -/
structure Spares (p : α → Prop) (g g' : Get α) : Prop where
  kind : KeepsSource g'
  memory : ∀ {s : Source}, s.kind = .memory → g s = g' s
  stream : ∀ {s t : Source} {a : α}, s.kind = .stream → (g s = .ok a t ↔ g' s = .ok a t ∧ p a)

namespace Spares

variable {p : α → Prop} {q : β → Prop} {g g' : Get α}

/-- One reader, and of all that it answers `p` holds. -/
theorem same (h : KeepsSource g) (hp : ∀ s t a, g s = .ok a t → p a) : Spares p g g where
  kind := h
  memory _ := rfl
  stream _ := ⟨fun hg => ⟨hg, hp _ _ _ hg⟩, And.left⟩

theorem pure {a : α} (ha : p a) : Spares p (pure a) (pure a) :=
  same (keepsSource_pure a) <| by
    rintro s t b ⟨⟩
    exact ha

theorem throw (e : Error) : Spares p (throw e) (throw e) :=
  same (fun _ _ _ => nofun) fun _ _ _ => nofun

/-- What the second steps answer shows whether `p` holds of what the first ones
did. -/
theorem bind {r : α → β → Prop} {k k' : α → Get β} (h : Spares p g g')
    (hk : ∀ a, Spares (r a) (k a) (k' a))
    (hq : ∀ a s b t, k' a s = .ok b t → (q b ↔ p a ∧ r a b)) :
    Spares q (g >>= k) (g' >>= k') where
  kind := h.kind.bind fun a => (hk a).kind
  memory := by
    intro s hs
    rw [bind_apply, bind_apply, h.memory hs]
    cases hg : g' s with
    | ok a u => exact (hk a).memory ((h.kind s u a hg).trans hs)
    | error e u => rfl
  stream := by
    intro s t b hs
    simp only [bind_eq_ok_iff]
    constructor
    · rintro ⟨a, u, hg, hrest⟩
      obtain ⟨hg, ha⟩ := (h.stream hs).mp hg
      obtain ⟨hrest, hb⟩ := ((hk a).stream ((h.kind s u a hg).trans hs)).mp hrest
      exact ⟨⟨a, u, hg, hrest⟩, (hq a u b t hrest).mpr ⟨ha, hb⟩⟩
    · rintro ⟨⟨a, u, hg, hrest⟩, hb⟩
      obtain ⟨ha, hb⟩ := (hq a u b t hrest).mp hb
      exact ⟨a, u, (h.stream hs).mpr ⟨hg, ha⟩,
        ((hk a).stream ((h.kind s u a hg).trans hs)).mpr ⟨hrest, hb⟩⟩

theorem map {f : α → β} (h : Spares p g g') (hq : ∀ a, q (f a) ↔ p a) :
    Spares q (do return f (← g)) (do return f (← g')) := by
  refine h.bind (r := fun _ _ => True) (fun a => pure trivial) fun a s b t hrun => ?_
  cases hrun
  exact (hq a).trans (iff_of_eq (and_true _)).symm

/-- The first step is the same on both sides. -/
theorem after {k k' : α → Get β} (h : KeepsSource g) (hk : ∀ a, Spares q (k a) (k' a)) :
    Spares q (g >>= k) (g >>= k') :=
  (same (p := fun _ => True) h fun _ _ _ _ => trivial).bind hk
    fun _ _ _ _ _ => (iff_of_eq (true_and _)).symm

/-- Two steps, with both answers given. -/
theorem pair {f f' : Get β} (h : Spares p g g') (hf : Spares q f f') :
    Spares (fun e : α × β => p e.1 ∧ q e.2) (do return (← g, ← f)) (do return (← g', ← f')) := by
  refine h.bind (fun a => hf.map (q := fun e => q e.2) fun b => Iff.rfl) ?_
  intro a s e t hrun
  obtain ⟨b, u, -, hrest⟩ := bind_eq_ok_iff.mp hrun
  cases hrest
  rfl

theorem collect (h : Spares p g g') (n : Nat) :
    Spares (fun as => ∀ a ∈ as, p a) (collect g n) (collect g' n) := by
  induction n with
  | zero => exact pure (List.forall_mem_nil p)
  | succ n ih =>
      rw [collect_succ, collect_succ]
      refine h.bind (fun a => ih.map (q := fun as => ∀ b ∈ as.tail, p b) fun as => Iff.rfl) ?_
      intro a s as t hrun
      obtain ⟨as', u, -, hrest⟩ := bind_eq_ok_iff.mp hrun
      cases hrest
      exact List.forall_mem_cons

end Spares

/-! ### Content that is taken -/

/-- The reader answers with a payload that is lent by memory and copied from a
stream. -/
structure Shares (g : Get α) (payload : α → Payload) : Prop where
  kind : KeepsSource g
  lent : ∀ {s t : Source} {a : α}, s.kind = .memory → g s = .ok a t → (payload a).borrowed = true
  copied : Copies g payload

theorem Lends.lent {g : Get Payload} {L : Language Bytes} (h : Lends g L) {s t : Source}
    {p : Payload} (hs : s.kind = .memory) (hrun : g s = .ok p t) : p.borrowed = true := by
  obtain ⟨bs, rest, hl, hbs, rfl⟩ := h.sound hrun
  obtain ⟨p', hp', -, hrun'⟩ := h.complete hl hbs
  cases hrun.symm.trans hrun'
  exact hp' hs

theorem shares_text : Shares text id := ⟨lends_text.keepsSource, lends_text.lent, copies_text⟩

theorem shares_binary : Shares binary id :=
  ⟨lends_binary.keepsSource, lends_binary.lent, copies_binary⟩

theorem shares_extension : Shares extension Prod.snd where
  kind := accepts_extensionHeader.keepsSource.bind fun header =>
    (lends_read header.2).keepsSource.bind fun p => keepsSource_pure (header.1, p)
  lent := by
    intro s t e hs hrun
    obtain ⟨header, u, hheader, hrest⟩ := bind_eq_ok_iff.mp hrun
    obtain ⟨p, v, hread, hv⟩ := bind_eq_ok_iff.mp hrest
    cases hv
    exact (lends_read header.2).lent ((accepts_extensionHeader.keepsSource _ _ _ hheader).trans hs)
      hread
  copied := copies_extension

/-- What has content in it is not read borrowed from a stream. -/
theorem Shares.spares {g : Get α} {payload : α → Payload} {f : α → Bytes → β} {q : β → Prop}
    (h : Shares g payload) (hq : ∀ a bs, ¬ q (f a bs)) :
    Spares q (do let a ← g; return f a (← Storage.borrowed.take (payload a)))
      (do let a ← g; return f a (← Storage.owned.take (payload a))) where
  kind := by
    intro s t b hrun
    obtain ⟨a, u, hg, hrest⟩ := bind_eq_ok_iff.mp hrun
    cases hrest
    exact h.kind s _ a hg
  memory := by
    intro s hs
    rw [bind_apply, bind_apply]
    cases hg : g s with
    | ok a u =>
        dsimp only
        rw [Storage.borrowed.take_lent (h.lent hs hg)]
        rfl
    | error e u => rfl
  stream := by
    intro s t b hs
    constructor
    · intro hrun
      obtain ⟨a, u, hg, hrest⟩ := bind_eq_ok_iff.mp hrun
      obtain ⟨bs, v, htake, -⟩ := bind_eq_ok_iff.mp hrest
      exact absurd htake (h.copied.not_borrowed hs hg bs v)
    · rintro ⟨hrun, hb⟩
      obtain ⟨a, u, -, hrest⟩ := bind_eq_ok_iff.mp hrun
      cases hrest
      exact absurd hb (hq a _)

end Get

open Get (Spares)

/-- Values that are read, given how those inside containers are. -/
theorem spares_getWith {inside inside' : Option (Get OwnedValue)}
    (h : Option.Rel (Spares (fun v : OwnedValue => v.bare)) inside inside') :
    Spares (fun v : OwnedValue => v.bare) (@Value.getWith Bytes Storage.borrowed.takes inside)
      (@Value.getWith Bytes Storage.owned.takes inside') := by
  refine Spares.after Get.keepsSource_marker fun m => ?_
  cases m.code.entity? with
  | none => exact .throw _
  | some e =>
      cases e with
      | null =>
          exact .after (Get.keepsSource_byte.bind fun _ => Get.keepsSource_pure ()) fun _ =>
            .pure rfl
      | boolean => exact .after Get.accepts_bool.keepsSource fun b => .pure rfl
      | integer => exact .after Get.accepts_anyNumber.keepsSource fun n => .pure rfl
      | floatingPoint => exact .after Get.accepts_anyNumber.keepsSource fun n => .pure rfl
      | string => exact Get.shares_text.spares fun _ _ => nofun
      | binary => exact Get.shares_binary.spares fun _ _ => nofun
      | extension => exact Get.shares_extension.spares fun _ _ => nofun
      | array =>
          cases h with
          | none => exact .throw _
          | some h =>
              exact .after Get.accepts_arrayHeader.keepsSource fun n =>
                (h.collect n).map fun vs => Value.bareElems_iff
      | map =>
          cases h with
          | none => exact .throw _
          | some h =>
              refine .after Get.accepts_mapHeader.keepsSource fun n => ?_
              exact ((h.pair h).collect n).map fun es => Value.bareEntries_iff

theorem spares_value (depth : Nat) :
    Spares (fun v : OwnedValue => v.bare) (Storage.borrowed.value depth)
      (Storage.owned.value depth) := by
  rw [Storage.value_eq, Storage.value_eq]
  induction depth with
  | zero => exact spares_getWith .none
  | succ depth ih => exact spares_getWith (.some ih)

theorem mapResult_eq_ok_iff {ε σ α β : Type} {f : α → β} {r : EStateM.Result ε σ α} {b : β}
    {s : σ} : mapResult f r = .ok b s ↔ ∃ a, r = .ok a s ∧ f a = b := by
  cases r <;> simp [mapResult, and_comm]

/-- It is a matter of storage alone whether a value borrows its content or owns
it. Memory is read alike either way, at any depth: with the same answer, once
the content has been copied, and what is left, or with the same complaint. A
copy gives back the value that was lent, and what is lent by a copy shows what
the original shows and compares as it does with anything. Both are written
alike by every policy, to any sink. A stream is read borrowed where it can be
read owned, if neither a string nor a binary nor an extension is met, not even
an empty one. -/
theorem Value.borrowing_agrees_with_owning :
    (∀ (depth : Nat) (left : Bytes) (position : Nat),
      (Value.get depth : Get OwnedValue) ⟨.memory, left, position⟩ =
        mapResult toOwned ((Value.get depth : Get ValueRef) ⟨.memory, left, position⟩)) ∧
    (∀ v : OwnedValue, v.asRef.toOwned = v) ∧
    (∀ r : ValueRef, r.toOwned.asRef = r.mapContent (fun w => .ofBytes w.toBytes) ∧
      ∀ q, (r.toOwned.asRef == q) = (r == q) ∧ (q == r.toOwned.asRef) = (q == r)) ∧
    (∀ (policy : EncodePolicy) (r : ValueRef), put policy r.toOwned = put policy r) ∧
    (∀ (policy : EncodePolicy) (v : OwnedValue), put policy v.asRef = put policy v) ∧
    ∀ (depth : Nat) (left : Bytes) (position : Nat) (v : OwnedValue) (t : Source),
      (∃ r : ValueRef, Value.get depth ⟨.stream, left, position⟩ = .ok r t ∧ r.toOwned = v) ↔
        Value.get depth ⟨.stream, left, position⟩ = .ok v t ∧ v.bare := by
  have hread (depth : Nat) (s : Source) : Storage.borrowed.value depth s =
      mapResult toOwned ((Value.get depth : Get ValueRef) s) := mapResult_eq _ toOwned s
  refine ⟨fun depth left position => ?_, toOwned_asRef, fun r => ⟨asRef_toOwned r, fun q => ?_⟩,
    fun policy => put_mapContent policy fun _ => rfl,
    fun policy => put_mapContent policy ByteView.toBytes_ofBytes, fun depth left position v t => ?_⟩
  · rw [← hread]
    exact ((spares_value depth).memory rfl).symm
  · rw [← beq_toOwned, toOwned_asRef, beq_toOwned]
    rw [← beq_toOwned q, toOwned_asRef, beq_toOwned]
    exact ⟨rfl, rfl⟩
  · have hs := (spares_value depth).stream (s := ⟨.stream, left, position⟩) (a := v) (t := t) rfl
    rw [hread, mapResult_eq_ok_iff] at hs
    exact hs

/-- An empty string is content that has to be lent. -/
example : (Value.array [.nil, .string []] : OwnedValue).bare = false := rfl

end MsgPack
