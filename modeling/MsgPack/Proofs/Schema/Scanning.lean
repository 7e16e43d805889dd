import MsgPack.Archive
import MsgPack.Proofs.Cursor.Scanning
import MsgPack.Proofs.Schema.Direct
import MsgPack.Proofs.Value.Scanning

/-!
Encodings delimit themselves. What is read of an input, directly or as an
object, is read of it whatever follows; it is read of nothing shorter, and
whoever tries finds the input to end too early. A stream that holds the same
bytes as memory yields the same.
-/

namespace MsgPack

/-- What a run tells: the answer and how much of the input has been consumed, or
the kind of its failure. -/
def outcome {σ α : Type} [Fed σ] : EStateM.Result Error σ α → Except ErrorKind (α × Nat)
  | .ok a c => .ok (a, (Fed.source c).position)
  | .error e _ => .error e.kind

/-- What is read of an input takes at least a byte of it, is read of just these
bytes whatever follows them, and of no strict front of them: there the input
ends too early. -/
def SelfDelimiting {α : Type} (read : Bytes → Except ErrorKind (α × Nat)) : Prop :=
  ∀ (input : Bytes) (a : α) (n : Nat), read input = .ok (a, n) →
    1 ≤ n ∧ n ≤ input.length ∧
      (∀ rest : Bytes, read (input.take n ++ rest) = .ok (a, n)) ∧
      ∀ front : Bytes, front <+: input.take n → front ≠ input.take n →
        read front = .error .endOfData

section Outcomes

variable {σ α : Type} [Fed σ] {streams : Prop} {least : Nat} {step : EStateM Error σ α}
  {kind kind' : SourceKind} {input front : Bytes}

theorem outcome_ok (kind : SourceKind) (input : Bytes) (a : α) (c : σ) (n : Nat) :
    outcome (.ok a (feed ((Source.ofBytes kind input).advance n) c) : EStateM.Result Error σ α) =
      .ok (a, n) := by
  have hposition : (Source.ofBytes kind input).position + n = n := Nat.zero_add n
  rw [outcome, Fed.source_feed, Source.position_advance, hposition]

theorem Beside.outcomes {r r' : EStateM.Result Error σ α}
    (h : Beside least (.ofBytes kind input) (.ofBytes kind' front) r r') :
    (∃ a n, least ≤ n ∧ n ≤ front.length ∧ outcome r = .ok (a, n) ∧ outcome r' = .ok (a, n)) ∨
      (∃ a n, front.length < n ∧ n ≤ input.length ∧ outcome r = .ok (a, n) ∧
        outcome r' = .error .endOfData) ∨
      ∃ e e', outcome r = .error e ∧ outcome r' = .error e' ∧
        (e = e' ∨ front.length < input.length) := by
  cases h with
  | ok a c n hleast hn hr hr' =>
      exact .inl ⟨a, n, hleast, hn, hr ▸ outcome_ok kind input a c n,
        hr' ▸ outcome_ok kind' front a c n⟩
  | short a c c' n e _ hn hlong hr hr' =>
      exact .inr (.inl ⟨a, n, hn, hlong, hr ▸ outcome_ok kind input a c n, congrArg outcome hr'⟩)
  | error e e' c c' hr hr' hkind =>
      exact .inr (.inr ⟨e.kind, e'.kind, congrArg outcome hr, congrArg outcome hr',
        hkind.imp_right And.right⟩)

theorem Scans.selfDelimiting (h : Scans streams (least + 1) step) (c : σ) :
    SelfDelimiting fun input => outcome (step (feed (.ofBytes .memory input) c)) := by
  intro input a n hrun
  have houtcomes {input front : Bytes} (hfront : front <+: input) :=
    (h c (.ofBytes .memory input) (.ofBytes .memory front) (.inl rfl) (.inl rfl) hfront).outcomes
  -- what was consumed is enough to read the same
  obtain ⟨hleast, hn, htaken⟩ : least + 1 ≤ n ∧ n ≤ input.length ∧
      outcome (step (feed (.ofBytes .memory (input.take n)) c)) = .ok (a, n) := by
    obtain ⟨a', n', hleast, hn, hinput, htaken⟩ | ⟨a', n', hn, hlong, hinput, -⟩ |
      ⟨e, e', hinput, -, -⟩ := houtcomes (input.take_prefix n)
    · obtain ⟨rfl, rfl⟩ := Prod.mk.inj (Except.ok.inj (hinput.symm.trans hrun))
      rw [List.length_take] at hn
      exact ⟨hleast, by omega, htaken⟩
    · obtain ⟨rfl, rfl⟩ := Prod.mk.inj (Except.ok.inj (hinput.symm.trans hrun))
      rw [List.length_take] at hn
      omega
    · cases hinput.symm.trans hrun
  refine ⟨Nat.le_of_add_left_le hleast, hn, fun rest => ?_, fun front hfront hne => ?_⟩
  · obtain ⟨a', n', -, -, hlong, hshort⟩ | ⟨a', n', -, -, -, hshort⟩ | ⟨e, e', -, hshort, -⟩ :=
      houtcomes (List.prefix_append (input.take n) rest)
    · exact (hlong.trans hshort.symm).trans htaken
    · cases hshort.symm.trans htaken
    · cases hshort.symm.trans htaken
  · have hless : front.length < n := by
      have hlt := hfront.length_le
      have hnelen : front.length ≠ (input.take n).length := fun h => hne (hfront.eq_of_length h)
      rw [List.length_take] at hlt hnelen
      omega
    obtain ⟨a', n', -, hn', hlong, -⟩ | ⟨a', n', -, -, -, hshort⟩ | ⟨e, e', hlong, -, -⟩ :=
      houtcomes hfront
    · obtain ⟨-, rfl⟩ := Prod.mk.inj (Except.ok.inj (hlong.symm.trans htaken))
      exact absurd hless (Nat.not_lt.mpr hn')
    · exact hshort
    · cases hlong.symm.trans htaken

/-- What is read of memory is read of every source of the same bytes. -/
theorem Scans.ok_of_memory (h : Scans streams least step) (hkind : kind = .memory ∨ streams)
    {a : α} {c c' : σ} (hrun : step (feed (.ofBytes .memory input) c) = .ok a c') :
    ∃ n c₀, c' = feed ((Source.ofBytes .memory input).advance n) c₀ ∧
      step (feed (.ofBytes kind input) c) =
        .ok a (feed ((Source.ofBytes kind input).advance n) c₀) := by
  cases h c (.ofBytes .memory input) (.ofBytes kind input) (.inl rfl) hkind List.prefix_rfl with
  | ok b c₀ n _ _ hmemory hother =>
      obtain ⟨rfl, rfl⟩ := EStateM.Result.ok.inj (hmemory.symm.trans hrun)
      exact ⟨n, c₀, rfl, hother⟩
  | short _ _ _ n _ _ hshort hlong _ _ => exact absurd hlong (Nat.not_le.mpr hshort)
  | error _ _ _ _ hmemory _ _ => cases hmemory.symm.trans hrun

/-- Where streams are admitted, they yield what memory does. -/
theorem Scans.outcome_stream (h : Scans True least step) (c : σ) (input : Bytes) :
    outcome (step (feed (.ofBytes .memory input) c)) =
      outcome (step (feed (.ofBytes .stream input) c)) := by
  have hbeside := h c (.ofBytes .memory input) (.ofBytes .stream input) (.inr trivial)
    (.inr trivial) (List.prefix_refl _)
  obtain ⟨a, n, -, -, hmemory, hstream⟩ | ⟨a, n, hlt, hle, -, -⟩ | ⟨e, e', hmemory, hstream, he⟩ :=
    hbeside.outcomes
  · rw [hmemory, hstream]
  · exact absurd hlt (Nat.not_lt.mpr hle)
  · obtain rfl := he.resolve_right (Nat.lt_irrefl _)
    rw [hmemory, hstream]

end Outcomes

/-! ### Direct encodings -/

namespace Codec

variable {α β : Type} {streams : Prop} {m n : Nat}

section Scans

variable {c : Codec α} {d : Codec β}

theorem scans_list (h : Scans streams n c.get) : Scans streams 1 c.list.get :=
  (Get.scans_length _ _).andThen fun k => h.collect k

theorem scans_map {cmp : α → α → Ordering} (hc : Scans streams m c.get)
    (hd : Scans streams n d.get) : Scans streams 1 (map cmp c d).get :=
  (Get.scans_length _ _).andThen fun k =>
    ((hc.bind fun a => hd.map fun b => (a, b)).collect k).map (mapOfEntries cmp)

/-- A look tells nil from anything else, which then has to be consumed. -/
theorem scans_option (h : Scans streams (n + 1) c.get) : Scans streams 1 c.option.get := by
  refine Get.peeks_marker.scans fun k => ?_
  split
  · exact Get.scans_after (.pure none)
  · exact (h.mono (Nat.le_add_left 1 n)).map some

theorem scans_next (hc : Scans streams m c.get) (hd : Scans streams n d.get) :
    Scans streams (m + n) (c.next d).get :=
  hc.bind fun a => hd.map fun b => (a, b)

theorem scans_tuple {row : Codec α} (k : Nat) (h : Scans streams n row.get) :
    Scans streams 1 (row.tuple k).get :=
  (Get.scans_length _ _).andThen fun found =>
    (Scans.checkArity k found).before fun _ => h.mono (Nat.zero_le n)

end Scans

end Codec

section Decode

variable {streams : Prop}

mutual

theorem Schema.scans_decode : (s : Schema) → (h : s.plain) → (streams → s.owning) →
    Scans streams 1 (s.codec h).get
  | .nil, _, _ => Get.scans_nil
  | .bool, _, _ => Get.scans_bool
  | .int t _, _, _ => Get.scans_exactInt t
  | .float p, _, _ => Get.scans_exactFloat p
  | .number, _, _ => Get.scans_anyNumber
  | .text _ _, _, hs => Get.scans_takeText fun h => of_decide_eq_true (hs h)
  | .binary _, _, hs => Get.scans_takeBinary fun h => of_decide_eq_true (hs h)
  | .extension _, _, hs => Get.scans_takeExtension fun h => of_decide_eq_true (hs h)
  | .fixedExtension capacity, _, _ => Get.scans_fixedExtension capacity
  | .timestamp l, _, _ => Get.scans_timestamp l
  | .instant u, _, _ => Get.scans_instant u
  | .value storage, _, hs => by
      have hvalue := storage.scans_value (fun h => of_decide_eq_true (hs h)) Value.defaultDepth
      cases storage <;> exact hvalue
  | .list s, h, hs => Codec.scans_list (s.scans_decode h hs)
  | .map k v, h, hs => by
      have h' := Bool.and_eq_true_iff.mp h
      have hs' := fun h => Bool.and_eq_true_iff.mp (hs h)
      exact Codec.scans_map (k.scans_decode h'.1 fun h => (hs' h).1)
        (v.scans_decode h'.2 fun h => (hs' h).2)
  | .option s, h, hs => Codec.scans_option (s.scans_decode h hs)
  | .tuple r, h, hs => Codec.scans_tuple r.length (r.scans_decode h hs)

theorem Row.scans_decode : (r : Row) → (h : r.plain) → (streams → r.owning) →
    Scans streams 0 (r.codec h).get
  | .nil, _, _ => .pure ()
  | .cons _ s rest, h, hs => by
      have h' := Bool.and_eq_true_iff.mp h
      have hs' := fun h => Bool.and_eq_true_iff.mp (hs h)
      have hitem := s.scans_decode h'.1 fun h => (hs' h).1
      exact (Codec.scans_next hitem (rest.scans_decode h'.2 fun h => (hs' h).2)).mono
        (Nat.zero_le _)

end

end Decode

/-! ### Core types -/

namespace Codec

/-- The codecs of core types, with numbers and values under any policy: plain
schemas, headers by themselves, containers of core types, and core types one
after another. What they read takes at least `least` bytes. Where streams are
admitted nothing is borrowed. -/
inductive Made (streams : Prop) : (least : Nat) → {α : Type} → Codec α → Prop
  | schema {s : Schema} (h : s.plain) (hs : streams → s.owning) : Made streams 1 (s.codec h)
  | int (p : EncodePolicy) (q : DecodePolicy) (t : IntType) : Made streams 1 ⟨p.int t, q.int t⟩
  | float (p : EncodePolicy) (q : DecodePolicy) (w : Precision) :
      Made streams 1 ⟨p.float w, q.float w⟩
  | number (p : EncodePolicy) : Made streams 1 ⟨p.number, Get.anyNumber⟩
  /-- Values that are nested at most `depth` deep are read. -/
  | value (p : EncodePolicy) {storage : Storage} (hs : streams → storage = .owned) (depth : Nat) :
      Made streams 1 ⟨Value.put p, storage.value depth⟩
  | arrayHeader : Made streams 1 arrayHeader
  | mapHeader : Made streams 1 mapHeader
  | list {α : Type} {n : Nat} {c : Codec α} (hc : Made streams n c) : Made streams 1 c.list
  | map {α β : Type} {m n : Nat} {c : Codec α} {d : Codec β} (cmp : α → α → Ordering)
      (hc : Made streams m c) (hd : Made streams n d) : Made streams 1 (map cmp c d)
  | option {α : Type} {n : Nat} {c : Codec α} (hc : Made streams (n + 1) c) :
      Made streams 1 c.option
  | nothing : Made streams 0 nothing
  | next {α β : Type} {m n : Nat} {c : Codec α} {d : Codec β} (hc : Made streams m c)
      (hd : Made streams n d) : Made streams (m + n) (c.next d)
  | tuple {α : Type} {n : Nat} {row : Codec α} (k : Nat) (hrow : Made streams n row) :
      Made streams 1 (row.tuple k)

theorem Made.scans {streams : Prop} {least : Nat} {α : Type} {c : Codec α}
    (h : Made streams least c) : Scans streams least c.get := by
  induction h with
  | schema h hs => exact Schema.scans_decode _ h hs
  | int p q t => exact Get.scans_int q t
  | float p q w => exact Get.scans_float q w
  | number p => exact Get.scans_anyNumber
  | value p hs depth => exact Storage.scans_value hs depth
  | arrayHeader => exact Get.scans_length _ _
  | mapHeader => exact Get.scans_length _ _
  | list _ ih => exact scans_list ih
  | map cmp _ _ ihc ihd => exact scans_map ihc ihd
  | option _ ih => exact scans_option ih
  | nothing => exact .pure ()
  | next _ _ ihc ihd => exact scans_next ihc ihd
  | tuple k _ ih => exact scans_tuple k ih

end Codec

/-! ### Fronts and streams -/

/-- Encodings delimit themselves, for every core type, whatever conversions of
numbers are admitted, and for every object, whatever it is read over and under
every setting of the cursor. -/
theorem encodings_delimit :
    (∀ {α : Type} {least : Nat} {c : Codec α}, c.Made False (least + 1) →
      SelfDelimiting fun input => outcome (c.get.run .memory input)) ∧
    ∀ (s : Schema) (x : s.Val) (policy : DecodePolicy) (maxDepth : Nat) (strict : Bool),
      SelfDelimiting fun input => outcome ((s.restore x).run
        { policy, maxDepth, strict, source := .ofBytes .memory input }) := by
  refine ⟨fun hc => hc.scans.selfDelimiting (.ofBytes .memory []), ?_⟩
  intro s x policy maxDepth strict
  have hscans : Scans False 1 (s.restore x) := s.scans_restore False.elim x
  exact hscans.selfDelimiting { policy, maxDepth, strict, source := .ofBytes .memory [] }

/-- Two labels of which the first is missing, lent from memory, and a byte that
is not theirs. -/
theorem encodings_delimit_labels :
    let c : Codec (List (Option Bytes)) := ((Schema.text .borrowed []).codec rfl).option.list
    let read (input : Bytes) := outcome (c.get.run .memory input)
    read [0x92, 0xc0, 0xa1, 0x61, 0x07] = .ok ([none, some [0x61]], 4) ∧
      (∀ rest : Bytes, read ([0x92, 0xc0, 0xa1, 0x61] ++ rest) = .ok ([none, some [0x61]], 4)) ∧
      ∀ front : Bytes, front <+: [0x92, 0xc0, 0xa1, 0x61] → front ≠ [0x92, 0xc0, 0xa1, 0x61] →
        read front = .error .endOfData := by
  intro c read
  have hlabel : Codec.Made False 1 ((Schema.text .borrowed []).codec rfl) :=
    .schema rfl False.elim
  have hread : read [0x92, 0xc0, 0xa1, 0x61, 0x07] = .ok ([none, some [0x61]], 4) := rfl
  obtain ⟨-, -, hrest, hfront⟩ := encodings_delimit.1 (.list (.option hlabel)) _ _ _ hread
  exact ⟨hread, hrest, hfront⟩

/-- A stream yields what memory does that holds the same bytes: the same answer
and as much consumed, or a failure of the same kind. This is so for every core
type and for every object that owns its content, whatever it is read over and
under every setting of the cursor. -/
theorem stream_reads_as_memory :
    (∀ {α : Type} {least : Nat} {c : Codec α}, c.Made True least → ∀ input : Bytes,
      outcome (c.get.run .memory input) = outcome (c.get.run .stream input)) ∧
    ∀ (s : Schema), s.owning → ∀ (x : s.Val) (policy : DecodePolicy) (maxDepth : Nat)
      (strict : Bool) (input : Bytes),
      let run (kind : SourceKind) := (s.restore x).run
        { policy, maxDepth, strict, source := .ofBytes kind input }
      outcome (run .memory) = outcome (run .stream) := by
  refine ⟨fun hc => hc.scans.outcome_stream (.ofBytes .memory []), ?_⟩
  intro s hs x policy maxDepth strict
  have hscans : Scans True 1 (s.restore x) := s.scans_restore (fun _ => hs) x
  exact hscans.outcome_stream { policy, maxDepth, strict, source := .ofBytes .memory [] }

/-- A length that nothing follows is found out on a stream as it is in memory,
and so is a list of texts. -/
theorem stream_reads_as_memory_short :
    let c : Codec Bytes := (Schema.binary .owned).codec rfl
    let s : Schema := .list (.text .owned [])
    let run (input : Bytes) := s.restoreFrom .widening .stream input
    outcome (c.get.run .stream [0xc6, 0xff, 0xff, 0xff, 0xff, 0x00]) = .error .endOfData ∧
      outcome (run [0x91, 0xa1, 0x61, 0x07]) = .ok ([[0x61]], 3) := by
  intro c s run
  have hc : c.Made True 1 := .schema rfl fun _ => rfl
  exact ⟨(stream_reads_as_memory.1 hc _).symm.trans rfl,
    (stream_reads_as_memory.2 s rfl s.fresh .widening _ _ _).symm.trans rfl⟩

end MsgPack
