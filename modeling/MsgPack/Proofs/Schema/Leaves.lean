import MsgPack.Proofs.Timestamp
import MsgPack.Proofs.Wire.ByValue
import MsgPack.Proofs.Wire.Leaves
import MsgPack.Schema.Restore

/-!
The schemas whose objects are read from a single leaf. Reading one is reading
the leaf and then looking at what was read, which may be found wrong by itself.
-/

namespace MsgPack

/-- Complaints about what has been read already. `stamp` tells whether its size
may be found to be of another format. -/
def Complains {α : Type} (stamp : Bool) (x : Except Error α) : Prop :=
  ∀ e, x = .error e → e.kind = .invalidData ∨ e.kind = .unexpectedFormat ∧ stamp = true

/-- The integer that its widest type holds for it. -/
def IntType.ofWidest (t : IntType) (wide : t.widest.Value) : Except Error t.Value :=
  match t.ofInt? wide.val with
  | some i => .ok i
  | none => .error (.invalidData (.outOfRange (.ofInt wide)))

/-- The character that a text consists of. -/
def charOf (bs : Bytes) : Except Error UInt32 :=
  match Utf8.single? bs with
  | some cp => .ok (UInt32.ofNat cp)
  | none => .error (.invalidData (.notOneCharacter bs.length))

theorem restoreCarried_apply (t : IntType) (c : Cursor) :
    restoreCarried t c =
      (do let wide ← Cursor.leaf (c.policy.int t.widest); Get.ofExcept (t.ofWidest wide)) c := by
  refine Eq.trans (b := (Cursor.leaf (c.policy.int t.widest) >>= _) c) rfl ?_
  refine congrFun (bind_congr fun wide => ?_) c
  rw [IntType.ofWidest]
  cases t.ofInt? wide.val <;> rfl

theorem restoreChar_eq :
    restoreChar = (do let bs ← Cursor.text .owned; Get.ofExcept (charOf bs)) := by
  refine bind_congr fun bs => ?_
  rw [charOf]
  cases Utf8.single? bs <;> rfl

section Complaints

variable {α β : Type} {stamp : Bool}

theorem complains_ok (a : α) : Complains stamp (.ok a) := fun _ h => nomatch h

theorem complains_invalidData (cause : Defect) :
    Complains stamp (.error (.invalidData cause) : Except Error α) := by
  rintro e ⟨⟩
  exact .inl rfl

theorem complains_unexpectedFormat (cause : Mismatch) :
    Complains true (.error (.unexpectedFormat cause) : Except Error α) := by
  rintro e ⟨⟩
  exact .inr ⟨rfl, rfl⟩

theorem Complains.bind {x : Except Error α} {f : α → Except Error β} (hx : Complains stamp x)
    (hf : ∀ a, Complains stamp (f a)) : Complains stamp (x >>= f) := by
  cases x with
  | ok a => exact hf a
  | error e =>
      intro e' h
      exact hx e' (congrArg Except.error (Except.error.inj h))

theorem complains_ofWidest (t : IntType) (wide : t.widest.Value) :
    Complains stamp (t.ofWidest wide) := by
  rw [IntType.ofWidest]
  split
  · exact complains_ok _
  · exact complains_invalidData _

theorem complains_charOf (bs : Bytes) : Complains stamp (charOf bs) := by
  rw [charOf]
  split
  · exact complains_ok _
  · exact complains_invalidData _

theorem complains_checkType (type : Int8) : Complains stamp (Timestamp.checkType type) := by
  rw [Timestamp.checkType]
  split
  · exact complains_ok _
  · exact complains_invalidData _

theorem complains_ofPayload (l : TimestampLayout) (data : Bytes) :
    Complains stamp (Timestamp.ofPayload l data) := by
  have hmake : ∀ seconds nanos, Complains stamp (Timestamp.make l seconds nanos) := by
    intro seconds nanos
    rw [Timestamp.make]
    split
    · exact complains_ok _
    · exact complains_invalidData _
  cases l <;> exact hmake _ _

theorem complains_fixedExtension (capacity : Nat) (e : Extension) :
    Complains stamp (FixedExtension.ofExtension capacity e) := by
  rw [FixedExtension.ofExtension]
  split
  · exact complains_ok _
  · exact complains_invalidData _

theorem complains_toInstant {l : TimestampLayout} (t : Timestamp l) :
    Complains stamp t.toInstant := by
  rw [Timestamp.toInstant]
  split
  · exact complains_ok _
  · exact complains_invalidData _

/-- A payload of the right size is not found to be of another format, nor is any
payload that is to be of the longest layout. -/
theorem complains_checkSize (l : TimestampLayout) (size : Nat)
    (h : l = .wide96 ∨ size = l.payloadSize ∨ stamp = true) :
    Complains stamp (Timestamp.checkSize l size) := by
  unfold Timestamp.checkSize
  by_cases hsize : size = l.payloadSize
  · rw [if_pos hsize]
    exact complains_ok _
  · rw [if_neg hsize]
    cases l with
    | wide96 => exact complains_invalidData _
    | seconds32 =>
        obtain rfl := (h.resolve_left TimestampLayout.noConfusion).resolve_left hsize
        exact complains_unexpectedFormat _
    | packed64 =>
        obtain rfl := (h.resolve_left TimestampLayout.noConfusion).resolve_left hsize
        exact complains_unexpectedFormat _

theorem complains_ofExtension (l : TimestampLayout) (e : Extension)
    (h : l = .wide96 ∨ e.data.length = l.payloadSize ∨ stamp = true) :
    Complains stamp (Timestamp.ofExtension l e) :=
  (complains_checkType _).bind fun _ => (complains_checkSize _ _ h).bind fun _ =>
    complains_ofPayload _ _

theorem complains_instantOfExtension (u : TimeUnit) (e : Extension)
    (h : (∃ l : TimestampLayout, e.data.length = l.payloadSize) ∨ stamp = true) :
    Complains stamp (Timestamp.instantOfExtension u e) := by
  rw [Timestamp.instantOfExtension]
  split
  · next l hlayout =>
      have hsize := Timestamp.payloadSize_of_layoutOfSize hlayout
      exact (complains_ofExtension l e (.inr (.inl hsize))).bind fun t =>
        (complains_toInstant t).bind fun i => complains_ok _
  · next hlayout =>
      obtain ⟨l, hsize⟩ | rfl := h
      · rw [hsize, Timestamp.layoutOfSize_payloadSize] at hlayout
        cases hlayout
      · exact complains_unexpectedFormat _

end Complaints

mutual

/-- Whether the objects keep all their content themselves. -/
def Schema.owning : Schema → Bool
  | .text storage _ | .binary storage | .extension storage | .value storage => storage = .owned
  | .nil | .bool | .int .. | .carried _ | .float _ | .number | .char | .fixedExtension _
  | .timestamp _ | .instant _ => true
  | .list s | .option s => s.owning
  | .map k v => k.owning && v.owning
  | .tuple r | .struct r => r.owning
  | .variant a => a.owning

def Row.owning : Row → Bool
  | .nil => true
  | .cons _ s rest => s.owning && rest.owning

def Alternatives.owning : Alternatives → Bool
  | .last _ c => c.owning
  | .cons _ c rest => c.owning && rest.owning

def Content.owning : Content → Bool
  | .unit => true
  | .item s => s.owning

end

namespace Schema

/-- Whether the objects are read from one leaf, whatever they are. -/
def isLeaf : Schema → Bool
  | .nil | .bool | .int .. | .carried _ | .float _ | .number | .char | .text .. | .binary _
  | .extension _ | .fixedExtension _ | .timestamp _ | .instant _ => true
  | .value _ | .list _ | .map .. | .option _ | .tuple _ | .struct _ | .variant _ => false

def isTimestamp : Schema → Bool
  | .timestamp _ | .instant _ => true
  | _ => false

/-- Reading an object from a leaf is reading the leaf by the policy of the
cursor, then checking it. Objects that own their content are read by value. -/
theorem restore_leaf {s : Schema} (hs : s.isLeaf = true) (x : s.Val) :
    ∃ (β : Type) (reader : DecodePolicy → Get β) (check : β → Except Error s.Val),
      (∀ policy, (reader policy).OfLeaves) ∧ (∀ b, Complains s.isTimestamp (check b)) ∧
        (s.owning = true → (reader .widening).ByValue) ∧
        ∀ c : Cursor, s.restore x c =
          (do let b ← Cursor.leaf (reader c.policy); Get.ofExcept (check b)) c := by
  -- most objects are what the leaf holds
  have hplain {α : Type} (reader : DecodePolicy → Get α) (hreader : ∀ p, (reader p).OfLeaves)
      (hvalue : s.owning = true → (reader .widening).ByValue) :
      ∃ (β : Type) (reader' : DecodePolicy → Get β) (check : β → Except Error α),
        (∀ p, (reader' p).OfLeaves) ∧ (∀ b, Complains s.isTimestamp (check b)) ∧
          (s.owning = true → (reader' .widening).ByValue) ∧
          ∀ c : Cursor, Cursor.leaf (reader c.policy) c =
            (do let b ← Cursor.leaf (reader' c.policy); Get.ofExcept (check b)) c :=
    ⟨α, reader, .ok, hreader, fun _ => complains_ok _, hvalue,
      fun c => (congrFun (bind_pure (Cursor.leaf (reader c.policy))) c).symm⟩
  cases s with
  | nil =>
      exact hplain (fun _ => Get.nil) (fun _ => ⟨Get.whole_nil, Get.mild_nil⟩)
        fun _ => Get.byValue_nil
  | bool =>
      exact hplain (fun _ => Get.bool) (fun _ => ⟨Get.whole_bool, Get.mild_bool⟩)
        fun _ => Get.byValue_bool
  | int t initial =>
      exact hplain (·.int t) (Get.ofLeaves_int · t) fun _ => Get.byValue_int t
  | float p => exact hplain (·.float p) (Get.ofLeaves_float · p) fun _ => Get.byValue_float p
  | number =>
      exact hplain (fun _ => Get.anyNumber) (fun _ => Get.ofLeaves_number)
        fun _ => Get.byValue_anyNumber
  | text storage initial =>
      refine hplain (fun _ => _) (fun _ => Get.ofLeaves_text storage) fun howning => ?_
      obtain rfl := of_decide_eq_true howning
      exact Get.byValue_text
  | binary storage =>
      refine hplain (fun _ => _) (fun _ => Get.ofLeaves_binary storage) fun howning => ?_
      obtain rfl := of_decide_eq_true howning
      exact Get.byValue_binary
  | extension storage =>
      refine hplain (fun _ => _) (fun _ => Get.ofLeaves_extension storage) fun howning => ?_
      obtain rfl := of_decide_eq_true howning
      exact Get.byValue_extension
  | carried t =>
      exact ⟨_, (·.int t.widest), t.ofWidest, (Get.ofLeaves_int · t.widest),
        complains_ofWidest t, fun _ => Get.byValue_int t.widest, restoreCarried_apply t⟩
  | char =>
      exact ⟨_, fun _ => _, charOf, fun _ => Get.ofLeaves_text .owned, complains_charOf,
        fun _ => Get.byValue_text, congrFun restoreChar_eq⟩
  | fixedExtension capacity =>
      exact ⟨_, fun _ => _, FixedExtension.ofExtension capacity,
        fun _ => Get.ofLeaves_extension .owned, complains_fixedExtension capacity,
        fun _ => Get.byValue_extension, fun _ => rfl⟩
  | timestamp l =>
      exact ⟨_, fun _ => _, Timestamp.ofExtension l, fun _ => Get.ofLeaves_extension .owned,
        fun e => complains_ofExtension l e (.inr (.inr rfl)), fun _ => Get.byValue_extension,
        fun _ => rfl⟩
  | instant u =>
      exact ⟨_, fun _ => _, Timestamp.instantOfExtension u,
        fun _ => Get.ofLeaves_extension .owned, fun e => complains_instantOfExtension u e (.inr rfl),
        fun _ => Get.byValue_extension, fun _ => rfl⟩
  | _ => cases hs

end Schema

end MsgPack
