import MsgPack.Proofs.Schema.Scanning
import MsgPack.Proofs.Writer.Delivery
import MsgPack.Proofs.Writer.Room

/-!
All sinks receive the same bytes. What a buffer takes, directly or as an
archive, lands in every sink that has room for it, and a sink that has less room
is filled with the front of it.
-/

namespace MsgPack

/-! ### Archives -/

namespace Schema

/-- What comes of archiving an object: the count of bytes, or the failure, and
the sink. -/
def delivery (s : Schema) (policy : EncodePolicy) (x : s.Val) (kind : SinkKind) :
    EStateM.Result Error Sink Nat :=
  Serializer.delivered (s.archive policy kind x)

variable {s : Schema} {policy : EncodePolicy} {x : s.Val}

/-- Where the scopes have a place for every event of an object, archiving it is
one writing step. -/
theorem delivery_eq {scopes : Scopes} (hes : ∀ e ∈ s.events x, e.refusal? = none)
    (htell : Scopes.tell (s.events x) [] = .ok () scopes) :
    s.delivery policy x = fun kind => Event.putAll policy (s.events x) { kind } := by
  funext kind
  have hrun := Serializer.delivered_run (s := .ofSink policy kind) hes htell
  simp only [Serializer.ofSink, Nat.zero_add, bind_pure] at hrun
  exact hrun

theorem delivery_fills {n : Nat} {sink : Sink} (h : s.delivery policy x .buffer = .ok n sink) :
    Fills (s.delivery policy x) sink.out.toList := by
  rw [delivery] at h
  cases hrun : s.archive policy .buffer x with
  | error e t =>
      rw [hrun] at h
      cases h
  | ok u t =>
      rw [hrun] at h
      cases h
      obtain ⟨hes, scopes, htell, rfl⟩ := (Serializer.run_ok_iff rfl).mp hrun
      rw [delivery_eq (fun e he => (hes e he).1) htell, Serializer.extend, Sink.toList_append]
      exact (Event.writes_putAll fun e he => (hes e he).2).fills

end Schema

/-! ### Direct encodings -/

namespace Value

open Put (Settled)

variable {β : Type} [ByteContent β] {policy : EncodePolicy}

theorem settled_number (n : Number) : Settled (policy.number n) := .writes _ (writes_number n)

theorem settled_binary (bs : Bytes) : Settled (Put.binary bs) := by
  have h := (Event.settled_put .exact (.beginBinary (some bs.length))).next
    (Event.settled_put .exact (.chunk bs))
  simpa [Event.put, Put.binary] using h

mutual

theorem settled_put (v : Value β) : Settled (v.put policy) := by
  cases v with
  | nil => exact Event.settled_put policy .nil
  | bool b => exact Event.settled_put policy (.bool b)
  | number n => exact settled_number n
  | string c => exact Event.settled_put policy (.text (ByteContent.bytes c))
  | extension t c => exact Event.settled_put policy (.extension ⟨t, ByteContent.bytes c⟩)
  | binary c => exact settled_binary _
  | array elems =>
      exact settled_putElems elems (Event.settled_put policy (.beginArray (some elems.length)))
  | map entries =>
      exact settled_putEntries entries (Event.settled_put policy (.beginMap (some entries.length)))
termination_by structural v

theorem settled_putElems (vs : List (Value β)) {put : Put Nat} (h : Settled put) :
    Settled (do let n ← put; putElems policy vs n) := by
  cases vs with
  | nil =>
      simp only [putElems, bind_pure]
      exact h
  | cons v vs =>
      have hnext := settled_putElems vs (h.next (settled_put v))
      simp only [bind_assoc, pure_bind] at hnext
      exact hnext
termination_by structural vs

theorem settled_putEntries (es : List (Value β × Value β)) {put : Put Nat} (h : Settled put) :
    Settled (do let n ← put; putEntries policy es n) := by
  cases es with
  | nil =>
      simp only [putEntries, bind_pure]
      exact h
  | cons e es =>
      obtain ⟨k, v⟩ := e
      have hnext := settled_putEntries es ((h.next (settled_put k)).next (settled_put v))
      simp only [bind_assoc, pure_bind] at hnext
      exact hnext
termination_by structural es

end

end Value

namespace Codec

variable {α β : Type} {c : Codec α} {d : Codec β}

/-- Whatever object is written, its bytes do not depend on the sink. -/
def Settled (c : Codec α) : Prop := ∀ x, Put.Settled (c.put x)

theorem settled_list (h : c.Settled) : c.list.Settled := fun xs =>
  .foldl (fun _ _ => rfl) h (Event.settled_put .exact (.beginArray (some xs.length))) xs

theorem settled_next (hc : c.Settled) (hd : d.Settled) : (c.next d).Settled := fun x =>
  (hc x.1).next (hd x.2)

theorem settled_map {cmp : α → α → Ordering} (hc : c.Settled) (hd : d.Settled) :
    (map cmp c d).Settled := by
  refine fun es => .foldl (fun n e => ?_) (settled_next hc hd)
    (Event.settled_put .exact (.beginMap (some es.length))) es
  simp [next, Nat.add_assoc]

theorem settled_option (h : c.Settled) : c.option.Settled
  | none => Event.settled_put .exact .nil
  | some x => h x

theorem settled_nothing : nothing.Settled := fun _ => .writes _ .nothing

theorem settled_tuple {row : Codec α} (n : Nat) (h : row.Settled) : (row.tuple n).Settled :=
  fun x => (Event.settled_put .exact (.beginArray (some n))).next (h x)

end Codec

mutual

theorem Schema.settled_encode : (s : Schema) → (h : s.plain) → (s.codec h).Settled
  | .nil, _ => fun _ => Event.settled_put .exact .nil
  | .bool, _ => fun b => Event.settled_put .exact (.bool b)
  | .int t _, _ => fun i => Event.settled_put .exact (.int t i)
  | .float p, _ => fun x => Event.settled_put .exact (.float p x)
  | .number, _ => Value.settled_number
  | .text _ _, _ => fun bs => Event.settled_put .exact (.text bs)
  | .binary _, _ => Value.settled_binary
  | .extension _, _ => fun e => Event.settled_put .exact (.extension e)
  | .fixedExtension _, _ => fun (e : FixedExtension _) => Event.settled_put .exact (.extension e.ext)
  | .timestamp _, _ => fun (t : Timestamp _) => Event.settled_put .exact (.extension t.toExtension)
  | .instant _, _ => fun (t : Instant _) =>
      Event.settled_put .exact (.extension (Timestamp.smallest t.toNanos).2.toExtension)
  | .value _, _ => Value.settled_put
  | .list s, h => Codec.settled_list (s.settled_encode h)
  | .map k v, h => by
      have h' := Bool.and_eq_true_iff.mp h
      exact Codec.settled_map (k.settled_encode h'.1) (v.settled_encode h'.2)
  | .option s, h => by
      rw [Schema.codec_option h]
      exact Codec.settled_option (s.settled_encode h)
  | .tuple r, h => by
      rw [Schema.codec_tuple h]
      exact Codec.settled_tuple r.length (r.settled_encode h)

theorem Row.settled_encode : (r : Row) → (h : r.plain) → (r.codec h).Settled
  | .nil, _ => Codec.settled_nothing
  | .cons _ s rest, h => by
      have h' := Bool.and_eq_true_iff.mp h
      rw [Row.codec_cons h h'.1 h'.2]
      exact Codec.settled_next (s.settled_encode h'.1) (rest.settled_encode h'.2)

end

theorem Codec.Made.settled {streams : Prop} {least : Nat} {α : Type} {c : Codec α}
    (h : Made streams least c) : c.Settled := by
  induction h with
  | schema h hs => exact Schema.settled_encode _ h
  | int p q t => exact fun i => Event.settled_put p (.int t i)
  | float p q w => exact fun x => Event.settled_put p (.float w x)
  | number p => exact Value.settled_number
  | value p hs depth => exact Value.settled_put
  | arrayHeader => exact fun n => Event.settled_put .exact (.beginArray (some n))
  | mapHeader => exact fun n => Event.settled_put .exact (.beginMap (some n))
  | list _ ih => exact settled_list ih
  | map cmp _ _ ihc ihd => exact settled_map ihc ihd
  | option _ ih => exact settled_option ih
  | nothing => exact settled_nothing
  | next _ _ ihc ihd => exact settled_next ihc ihd
  | tuple k _ ih => exact settled_tuple k ih

/-! ### Every sink -/

/-- What a buffer takes is what every sink receives: as much of it as there is
room for, and the count that is answered where there is room for all. This is so
for every object that is archived, under every policy, and for everything that
is written as a core type. -/
theorem sinks_receive_alike :
    (∀ (s : Schema) (policy : EncodePolicy) (x : s.Val) (n : Nat) (sink : Sink),
      s.delivery policy x .buffer = .ok n sink →
        Fills (s.delivery policy x) sink.out.toList) ∧
    ∀ {α : Type} {least : Nat} {c : Codec α}, c.Made False least →
      ∀ (x : α) (n : Nat) (sink : Sink), c.put x { kind := .buffer } = .ok n sink →
        Fills (fun kind => c.put x { kind }) sink.out.toList :=
  ⟨fun _ _ _ _ _ => Schema.delivery_fills, fun hc x _ _ => (hc.settled x).fills⟩

/-- A list of texts breaks off in the middle of the second, and on a stream
within its content; written directly as well as in an archive. -/
theorem sinks_receive_alike_labels :
    let s : Schema := .list (.text .owned [])
    let bytes : Bytes := [0x92, 0xa1, 0x61, 0xa2, 0x62, 0x63]
    let archive := s.delivery .lossless [[0x61], [0x62, 0x63]]
    let encode (kind : SinkKind) := (s.codec rfl).put [[0x61], [0x62, 0x63]] { kind }
    archive .buffer = .ok 6 { kind := .buffer, out := bytes.toArray } ∧
      archive (.memory 6) = .ok 6 { kind := .memory 6, out := bytes.toArray } ∧
      (∃ e sink, archive (.memory 5) = .error e sink ∧ e.kind = .bufferFull ∧
        sink.out.toList <+: bytes) ∧
      encode .buffer = .ok 6 { kind := .buffer, out := bytes.toArray } ∧
      ∃ e sink, encode (.stream (some 5)) = .error e sink ∧ e.kind = .bufferFull ∧
        sink.out.toList = bytes.take 5 := by
  intro s bytes archive encode
  have hbuffer : archive .buffer = .ok 6 { kind := .buffer, out := bytes.toArray } := rfl
  have hfills := sinks_receive_alike.1 s .lossless _ 6 _ hbuffer
  have hcodec : (s.codec rfl).Made False 1 := .schema rfl False.elim
  have hencode : encode .buffer = .ok 6 { kind := .buffer, out := bytes.toArray } := rfl
  have hfills' := sinks_receive_alike.2 hcodec _ 6 _ hencode
  exact ⟨hbuffer, hfills.fits 6 (by decide) _ (.inl rfl), hfills.memory_full 5 (by decide),
    hencode, hfills'.stream_full 5 (by decide)⟩

end MsgPack
