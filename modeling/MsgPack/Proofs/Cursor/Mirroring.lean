import MsgPack.Proofs.Cursor.Elements
import MsgPack.Proofs.Wire.Leaves
import MsgPack.Schema.Restore

/-!
Values are read twice: by a reader that counts the nesting down and looks at
what is left before it reads a header, and under a cursor, which keeps a stack
of scopes and complains when it would open one too many, with the header
consumed. The two mirror each other on every input, whole or not: they answer
the same and leave the same, or both fail. Only what they complain about when
the nesting is too deep may differ.
-/

namespace MsgPack

namespace Value

variable {β γ : Type} (f : β → γ)

theorem mapElems_eq (vs : List (Value β)) : mapElems f vs = vs.map (mapContent f) := by
  induction vs with
  | nil => rfl
  | cons v vs ih => rw [mapElems, ih, List.map_cons]

theorem mapEntries_eq (es : List (Value β × Value β)) :
    mapEntries f es = es.map (Prod.map (mapContent f) (mapContent f)) := by
  induction es with
  | nil => rfl
  | cons e es ih => rw [mapEntries, ih, List.map_cons, Prod.map]

mutual

theorem mapContent_id (v : Value β) : v.mapContent id = v := by
  cases v with
  | array elems => rw [mapContent, mapElems_id]
  | map entries => rw [mapContent, mapEntries_id]
  | _ => rfl

theorem mapElems_id (vs : List (Value β)) : mapElems id vs = vs := by
  cases vs with
  | nil => rfl
  | cons v vs => rw [mapElems, mapContent_id, mapElems_id]

theorem mapEntries_id (es : List (Value β × Value β)) : mapEntries id es = es := by
  cases es with
  | nil => rfl
  | cons e es => rw [mapEntries, mapContent_id, mapContent_id, mapEntries_id]

end

end Value

/-- A value nested at most `depth` deep, its byte content held in the given
manner while it is read. -/
def Storage.value : Storage → (depth : Nat) → Get OwnedValue
  | owned, depth => Value.get depth
  | borrowed, depth => return Value.toOwned (← Value.get depth)

namespace Cursor

variable {α β γ δ : Type} {fs fs' fs'' outer : List Frame} {limit : Nat}

/-- Two failures of the same kind, unless one of them is about the nesting. -/
def SameFailure (e e' : Error) : Prop :=
  e.kind ≠ .recursionLimit → e'.kind ≠ .recursionLimit → e.kind = e'.kind

theorem SameFailure.rfl {e : Error} : SameFailure e e := fun _ _ => .refl _

/-- A run under the cursor `c` and a run on its source end alike: with answers
that are related by `f` and the same source, the scopes `fs` being open, or with
two failures. -/
inductive Alike (f : β → α) (c : Cursor) (fs : List Frame)
    (r : EStateM.Result Error Cursor α) (r' : EStateM.Result Error Source β) : Prop
  | ok (b : β) (s : Source) (lastId : Nat)
      (h : r = .ok (f b) { c with source := s, frames := fs, lastId }) (h' : r' = .ok b s)
  | error {e e' : Error} {c' : Cursor} {s : Source} (h : r = .error e c') (h' : r' = .error e' s)
      (he : SameFailure e e')

/-- With the scopes `fs` open of `limit` that there may be, the step ends as the
reader does, and leaves the scopes `fs'` open. -/
def Mirrors (step : Step α) (g : Get β) (f : β → α) (fs fs' : List Frame) (limit : Nat) : Prop :=
  ∀ c : Cursor, c.frames = fs → c.maxDepth = limit → Alike f c fs' (step c) (g c.source)

namespace Mirrors

variable {step : Step α} {g : Get β} {f : β → α}

theorem pure (f : β → α) (b : β) : Mirrors (pure (f b)) (pure b) f fs fs limit := by
  rintro c rfl -
  exact .ok b c.source c.lastId rfl rfl

theorem bind {k : α → Step γ} {k' : β → Get δ} {f' : δ → γ} (h : Mirrors step g f fs fs' limit)
    (hk : ∀ b, Mirrors (k (f b)) (k' b) f' fs' fs'' limit) :
    Mirrors (step >>= k) (g >>= k') f' fs fs'' limit := by
  intro c hfs hlimit
  cases h c hfs hlimit with
  | error h h' he => exact .error (bind_of_error h) (bind_of_error h') he
  | ok b s id h h' =>
      rw [bind_of_ok h, bind_of_ok h']
      cases hk b { c with source := s, frames := fs', lastId := id } rfl hlimit with
      | error hnext hnext' he => exact .error hnext hnext' he
      | ok d t id' hnext hnext' => exact .ok d t id' hnext hnext'

theorem map {j : α → γ} {j' : β → δ} {f' : δ → γ} (h : Mirrors step g f fs fs' limit)
    (hj : ∀ b, j (f b) = f' (j' b)) :
    Mirrors (do return j (← step)) (do return j' (← g)) f' fs fs' limit :=
  h.bind fun b => hj b ▸ .pure f' (j' b)

/-- A step that reads nothing, before one that is mirrored. -/
theorem quiet {first : Step γ} {a : γ} {k : γ → Step α}
    (hfirst : ∀ c : Cursor, c.frames = fs → first c = .ok a { c with frames := fs' })
    (h : Mirrors (k a) g f fs' fs'' limit) : Mirrors (first >>= k) g f fs fs'' limit := by
  intro c hfs hlimit
  rw [bind_of_ok (hfirst c hfs)]
  cases h { c with frames := fs' } rfl hlimit with
  | error h h' he => exact .error h h' he
  | ok b s id h h' => exact .ok b s id h h'

theorem elemLeft {first : Frame} {k : Nat → Step α}
    (h : Mirrors (k first.remaining) g f (first :: outer) fs' limit) :
    Mirrors (elemLeft >>= k) g f (first :: outer) fs' limit := by
  refine h.quiet fun c hc => ?_
  rw [elemLeft_of_frames hc, ← hc]

/-- What is read to the end of a scope, with the scope closed behind it. -/
theorem closing {kind : Container} {key : Nat}
    (h : Mirrors step g f fs (.opened kind key 0 :: outer) limit) :
    Mirrors (do let x ← step; endScope kind key; return x) g f fs outer limit := by
  rw [← bind_pure g]
  exact h.bind fun b => (Mirrors.pure f b).quiet fun c hc => endScope_of_frames hc

theorem leaf {g : Get α} {g' : Get β} (hfs : Readable fs) (hg : g = do return f (← g')) :
    Mirrors (leaf g) g' f fs (fs.modifyHead Frame.stepped) limit := by
  rintro c rfl -
  cases hrun : g' c.source with
  | error e s =>
      have hread : g c.source = .error e s := by rw [hg, bind_of_error hrun]
      exact .error (leaf_of_error hfs hread) rfl .rfl
  | ok b s =>
      have hread : g c.source = .ok (f b) s := by rw [hg, bind_of_ok hrun]; rfl
      exact .ok b s c.lastId (leaf_of_ok hfs hread) rfl

/-- A look at what comes next. -/
theorem typeNext {k : EntityType → Step α} {k' : Marker → Get β} (expected : Expected)
    (h : ∀ m e, m.code.entity? = some e → ∀ c : Cursor, c.frames = fs → c.maxDepth = limit →
      Get.marker c.source = .ok m c.source → Alike f c fs' (k e c) (k' m c.source))
    (hnone : ∀ m, m.code.entity? = none → k' m = Get.refuse expected m) :
    Mirrors (typeNext >>= k) (Get.marker >>= k') f fs fs' limit := by
  intro c hfs hlimit
  cases hmarker : Get.marker c.source with
  | error e s =>
      have htype : Cursor.typeNext c = .error e { c with source := s } :=
        fromSource_of_error (bind_of_error hmarker)
      exact .error (bind_of_error htype) (bind_of_error hmarker) .rfl
  | ok m s =>
      obtain rfl := Get.still_marker _ _ _ hmarker
      rw [bind_of_ok hmarker]
      cases he : m.code.entity? with
      | some e =>
          rw [bind_of_ok (typeNext_of_marker hmarker he)]
          exact h m e he c hfs hlimit hmarker
      | none =>
          rw [hnone m he]
          exact .error (bind_of_error (typeNext_of_unknown hmarker he)) rfl fun _ _ => rfl

/-! ### Containers -/

/-- A container where there is room for one. -/
theorem scope (kind : Container) {k : Nat → Step α} {k' : Nat → Get β} (hfs : Readable fs)
    (hroom : fs.length < limit)
    (h : ∀ key n, Mirrors (k key) (k' n) f
      (.opened kind key (places kind n) :: fs.modifyHead Frame.stepped)
      (fs.modifyHead Frame.stepped) limit) :
    Mirrors (beginScope kind >>= k) (headerOf kind >>= k') f fs (fs.modifyHead Frame.stepped)
      limit := by
  rintro c rfl rfl
  cases hheader : headerOf kind c.source with
  | error e s =>
      exact .error (bind_of_error (beginScope_of_error hfs hheader)) (bind_of_error hheader) .rfl
  | ok n s =>
      have hbegin := beginScope_of_ok hfs hheader
      rw [pushFrame_of_room kind _ ((length_modifyHead ..).symm ▸ hroom)] at hbegin
      rw [bind_of_ok hbegin, bind_of_ok hheader]
      cases h (c.lastId + 1) n { c with
          source := s
          frames := .opened kind (c.lastId + 1) (places kind n) :: c.frames.modifyHead Frame.stepped
          lastId := c.lastId + 1 } rfl rfl with
      | error h h' he => exact .error h h' he
      | ok b t id h h' => exact .ok b t id h h'

/-- A container where there is no room is refused by both, at the latest when
its scope would be opened. -/
theorem tooDeep {kind : Container} {k : Nat → Step α} {e : Error} (hfs : Readable fs)
    (hfull : limit ≤ fs.length) (he : e.kind = .recursionLimit) :
    Mirrors (beginScope kind >>= k) (throw e : Get β) f fs fs' limit := by
  rintro c rfl rfl
  cases hheader : headerOf kind c.source with
  | error e' s =>
      exact .error (bind_of_error (beginScope_of_error hfs hheader)) rfl
        fun _ hother => absurd he hother
  | ok n s =>
      have hbegin := beginScope_of_ok hfs hheader
      rw [pushFrame_of_full kind _ ((length_modifyHead ..).symm ▸ hfull)] at hbegin
      exact .error (bind_of_error hbegin) rfl fun _ hother => absurd he hother

/-- A step that is repeated takes the open scopes from one stage to the next. -/
theorem collect (stage : Nat → List Frame)
    (h : ∀ n, Mirrors step g f (stage (n + 1)) (stage n) limit) (n : Nat) :
    Mirrors (collect step n) (MsgPack.collect g n) (List.map f) (stage n) (stage 0) limit := by
  induction n with
  | zero => exact .pure (List.map f) []
  | succ n ih =>
      rw [collect_succ, collect_succ]
      exact (h n).bind fun b => ih.map fun bs => rfl

/-- What is an element anywhere with one more scope open. -/
theorem elements (hfs : Readable fs) (hroom : fs.length < limit)
    (h : ∀ inside : List Frame, inside.length = fs.length + 1 → Readable inside →
      Mirrors step g f inside (inside.modifyHead Frame.stepped) limit) :
    Mirrors (elements step) (do MsgPack.collect g (← Get.arrayHeader)) (List.map f) fs
      (fs.modifyHead Frame.stepped) limit := by
  refine scope .array hfs hroom fun key n => .elemLeft ?_
  have hcollect := collect (fun n => .opened .array key n :: fs.modifyHead Frame.stepped)
    fun n => h _ (congrArg (· + 1) (length_modifyHead ..)) (readable_array key n _)
  exact (hcollect n).closing

theorem entries (hfs : Readable fs) (hroom : fs.length < limit)
    (h : ∀ inside : List Frame, inside.length = fs.length + 1 → Readable inside →
      Mirrors step g f inside (inside.modifyHead Frame.stepped) limit) :
    Mirrors (entries step step)
      (do MsgPack.collect (do return (← g, ← g)) (← Get.mapHeader)) (List.map (Prod.map f f)) fs
      (fs.modifyHead Frame.stepped) limit := by
  refine scope .map hfs hroom fun key n => .elemLeft ?_
  have hlength : ∀ first : Frame, (first :: fs.modifyHead Frame.stepped).length = fs.length + 1 :=
    fun _ => congrArg (· + 1) (length_modifyHead ..)
  -- an entry takes two of the places, the first of them announced
  have hentry : ∀ n, Mirrors (do announceKey; return (← step, ← step))
      (do return (← g, ← g)) (Prod.map f f)
      (.opened .map key (2 * (n + 1)) :: fs.modifyHead Frame.stepped)
      (.opened .map key (2 * n) :: fs.modifyHead Frame.stepped) limit := by
    intro n
    have hkey := h _ (hlength _) (readable_announced key n (fs.modifyHead Frame.stepped))
    have hvalue := h _ (hlength _) (readable_odd key n (fs.modifyHead Frame.stepped))
    rw [List.modifyHead_cons, stepped_announced] at hkey
    rw [List.modifyHead_cons, stepped_odd] at hvalue
    refine quiet (fun c hc => announceKey_of_frames hc) ?_
    exact hkey.bind fun b => hvalue.map fun b' => rfl
  have hcollect := collect (fun n => .opened .map key (2 * n) :: fs.modifyHead Frame.stepped) hentry
  have htotal : (Frame.opened .map key (places .map n)).remaining / 2 = n :=
    Nat.mul_div_cancel_left n Nat.two_pos
  rw [htotal]
  exact (hcollect n).closing

end Mirrors

/-! ### Values -/

section Values

open ByteContent (bytes)

variable [Takes β] {storage : Storage}

/-- The bytes of content that is taken in a manner are those that the manner of
storage takes. -/
def Held (storage : Storage) (β : Type) [Takes β] : Prop :=
  ∀ p, storage.take p = do return bytes (← (Takes.take p : Get β))

theorem held_owned : Held .owned Bytes := fun _ => rfl

theorem held_borrowed : Held .borrowed ByteView := fun _ => rfl

/-- How the values inside a container are read by both, if there may be a
container. -/
def Nested (inside : Step OwnedValue) (fs : List Frame) (limit : Nat) :
    Option (Get (Value β)) → Prop
  | none => limit ≤ fs.length
  | some get => fs.length < limit ∧ ∀ outer : List Frame, outer.length = fs.length + 1 →
      Readable outer → Mirrors inside get (Value.mapContent bytes) outer
        (outer.modifyHead Frame.stepped) limit

theorem Mirrors.asValue {step : Step α} {g : Get γ} {f : γ → α} (h : Mirrors step g f fs fs' limit)
    (j : α → OwnedValue) (j' : γ → Value β) (hj : ∀ b, j (f b) = (j' b).mapContent bytes) :
    Mirrors (do return j (← step)) (do return j' (← g)) (Value.mapContent bytes) fs fs' limit :=
  h.map hj

/-- A text or a binary, its content taken in either manner. -/
theorem mirrors_content (hheld : Held storage β) (hfs : Readable fs) (get : Get Payload)
    (j : Bytes → OwnedValue) (j' : β → Value β) (hj : ∀ b, j (bytes b) = (j' b).mapContent bytes) :
    Mirrors (do return j (← leaf (do storage.take (← get))))
      (do return j' (← Takes.take (← get))) (Value.mapContent bytes) fs
      (fs.modifyHead Frame.stepped) limit := by
  have htaken : Mirrors (leaf (do storage.take (← get))) (do Takes.take (← get) : Get β) bytes fs
      (fs.modifyHead Frame.stepped) limit := by
    refine .leaf hfs ?_
    simp only [hheld _, bind_assoc]
  have h := htaken.asValue j j' hj
  rwa [bind_assoc] at h

theorem mirrors_extension (hheld : Held storage β) (hfs : Readable fs) :
    Mirrors (do let e ← extension storage; return Value.extension e.type e.data)
      (do let (type, p) ← Get.extension; return Value.extension type (← (Takes.take p : Get β)))
      (Value.mapContent bytes) fs (fs.modifyHead Frame.stepped) limit := by
  have htaken : Mirrors (extension storage)
      (do let (type, p) ← Get.extension; return (type, ← Takes.take p) : Get (Int8 × β))
      (fun e => ⟨e.1, bytes e.2⟩) fs (fs.modifyHead Frame.stepped) limit := by
    refine .leaf hfs ?_
    simp only [hheld _, bind_assoc, pure_bind]
  have h := htaken.asValue (β := β) (fun e => .extension e.type e.data)
    (fun e => .extension e.1 e.2) fun _ => rfl
  simp only [bind_assoc, pure_bind] at h
  exact h

theorem mirrors_array {inside : Step OwnedValue} {get? : Option (Get (Value β))}
    (hfs : Readable fs) (hinside : Nested inside fs limit get?) :
    Mirrors (do return Value.array (← elements inside))
      (match get? with
        | none => throw (.recursionLimit .value)
        | some get => do
          let n ← Get.arrayHeader
          return Value.array (← MsgPack.collect get n))
      (Value.mapContent bytes) fs (fs.modifyHead Frame.stepped) limit := by
  cases get? with
  | none =>
      rw [elements, bind_assoc]
      exact .tooDeep hfs hinside rfl
  | some get =>
      have h := (Mirrors.elements hfs hinside.1 hinside.2).asValue Value.array Value.array
        fun vs => congrArg Value.array (Value.mapElems_eq bytes vs).symm
      rwa [bind_assoc] at h

theorem mirrors_map {inside : Step OwnedValue} {get? : Option (Get (Value β))}
    (hfs : Readable fs) (hinside : Nested inside fs limit get?) :
    Mirrors (do return Value.map (← entries inside inside))
      (match get? with
        | none => throw (.recursionLimit .value)
        | some get => do
          let n ← Get.mapHeader
          return Value.map (← MsgPack.collect (do return (← get, ← get)) n))
      (Value.mapContent bytes) fs (fs.modifyHead Frame.stepped) limit := by
  cases get? with
  | none =>
      rw [entries, bind_assoc]
      exact .tooDeep hfs hinside rfl
  | some get =>
      have h := (Mirrors.entries hfs hinside.1 hinside.2).asValue Value.map Value.map
        fun es => congrArg Value.map (Value.mapEntries_eq bytes es).symm
      rwa [bind_assoc] at h

theorem mirrors_valueWith (hheld : Held storage β) {inside : Step OwnedValue}
    {get? : Option (Get (Value β))} (hfs : Readable fs) (hinside : Nested inside fs limit get?) :
    Mirrors (valueWith storage inside) (Value.getWith get?) (Value.mapContent bytes) fs
      (fs.modifyHead Frame.stepped) limit := by
  have hleaf : ∀ {α : Type} (get : Get α),
      Mirrors (leaf get) get id fs (fs.modifyHead Frame.stepped) limit :=
    fun get => .leaf hfs (bind_pure get).symm
  refine .typeNext .value (fun m e he c hc hlimit hmarker => ?_) fun m hm => ?_
  · rw [he]
    cases e with
    | null =>
        -- the marker is known to be that of nil
        have hcode : m.code = .nil := by
          cases hm : m.code <;> rw [hm] at he <;> first | rfl | cases he
        have hnil : (do Get.nil; return Value.nil : Get (Value β)) c.source =
            Get.after (pure Value.nil) c.source := by
          rw [Get.nil, bind_assoc, bind_of_ok hmarker, hcode]
          simp only [Get.after, bind_assoc, pure_bind]
        have h := (hleaf Get.nil).asValue (β := β) (fun _ => .nil) (fun _ => .nil) (fun _ => rfl) c
          hc hlimit
        rw [hnil] at h
        exact h
    | boolean => exact (hleaf Get.bool).asValue .bool .bool (fun _ => rfl) c hc hlimit
    | integer => exact (hleaf Get.anyNumber).asValue .number .number (fun _ => rfl) c hc hlimit
    | floatingPoint =>
        exact (hleaf Get.anyNumber).asValue .number .number (fun _ => rfl) c hc hlimit
    | string =>
        exact mirrors_content hheld hfs Get.text .string .string (fun _ => rfl) c hc hlimit
    | binary =>
        exact mirrors_content hheld hfs Get.binary .binary .binary (fun _ => rfl) c hc hlimit
    | extension => exact mirrors_extension hheld hfs c hc hlimit
    | array => exact mirrors_array hfs hinside c hc hlimit
    | map => exact mirrors_map hfs hinside c hc hlimit
  · rw [hm]

/-- The levels that a reader may still go down are the scopes that the cursor
may still open. -/
theorem mirrors_valueWithin (hheld : Held storage β) {levels : Nat} (hfs : Readable fs)
    (hlevels : limit - fs.length = levels) :
    Mirrors (valueWithin storage levels) (Value.get levels : Get (Value β))
      (Value.mapContent bytes) fs (fs.modifyHead Frame.stepped) limit := by
  induction levels generalizing fs with
  | zero => exact mirrors_valueWith hheld hfs (Nat.le_of_sub_eq_zero hlevels)
  | succ levels ih =>
      refine mirrors_valueWith hheld hfs ⟨by omega, fun outer hlen houter => ?_⟩
      exact ih houter (by omega)

theorem alike_value (hheld : Held storage β) {c : Cursor} (h : Readable c.frames) :
    Alike (Value.mapContent bytes) c (c.frames.modifyHead Frame.stepped) (value storage c)
      ((Value.get (c.maxDepth - c.frames.length) : Get (Value β)) c.source) :=
  mirrors_valueWithin hheld h rfl c rfl rfl

end Values

theorem alike_storage_value (storage : Storage) {c : Cursor} (h : Readable c.frames) :
    Alike id c (c.frames.modifyHead Frame.stepped) (value storage c)
      (storage.value (c.maxDepth - c.frames.length) c.source) := by
  cases storage with
  | owned =>
      have hid : Value.mapContent (ByteContent.bytes : Bytes → Bytes) = id :=
        funext Value.mapContent_id
      exact hid ▸ alike_value held_owned h
  | borrowed =>
      cases alike_value held_borrowed h with
      | error hrun hget he => exact .error hrun (bind_of_error hget) he
      | ok v s id hrun hget => exact .ok (Value.toOwned v) s id hrun (bind_of_ok hget)

/-- The two readers of values agree. On every input, with the same limit for the
scopes that a fresh cursor may open and for the nesting of a value, either both
succeed with the same value and as much of the input behind them, and the cursor
has no scope open, or both fail; and unless one of them complains about the
nesting, they fail with errors of the same kind. -/
theorem restore_value_agrees (storage : Storage) (policy : DecodePolicy) (strict : Bool)
    (kind : SourceKind) (limit : Nat) (input : Bytes) (initial : OwnedValue) :
    let fresh : Cursor := { ofBytes policy kind input with maxDepth := limit, strict }
    (∃ v c, (Schema.value storage).restore initial fresh = .ok v c ∧
        Get.run (storage.value limit) kind input = .ok v c.source ∧ c.frames = []) ∨
      ∃ e c e' s, (Schema.value storage).restore initial fresh = .error e c ∧
        Get.run (storage.value limit) kind input = .error e' s ∧
        (e.kind ≠ .recursionLimit → e'.kind ≠ .recursionLimit → e.kind = e'.kind) := by
  intro fresh
  cases alike_storage_value storage (c := fresh) trivial with
  | ok v s id hrun hget => exact .inl ⟨v, _, hrun, hget, rfl⟩
  | error hrun hget he => exact .inr ⟨_, _, _, _, hrun, hget, he⟩

end Cursor

end MsgPack
