import Mathlib.Data.List.Infix
import MsgPack.Cursor.Skip
import MsgPack.Proofs.Wire.Finding
import MsgPack.Proofs.Wire.Fitting
import MsgPack.Schema.Codec

/-!
Readers look at what they consume and at nothing behind it. Two runs are put
side by side, the second on a source that holds a front of what the first one
holds: as long as the front lasts they do the same, and where it ends the
second run complains of the end of data and of nothing else. Truncated inputs
are compared with whole ones in this way, and, the front being the whole,
streams with memory.

A look ahead is no such reader by itself, since it fails at the end of an input
without being about to consume anything. It has to be followed by a reader that
consumes at least one byte.
-/

namespace MsgPack

/-- States that hold a source. -/
class Fed (σ : Type) where
  source : σ → Source
  /-- The state with another source in place of its own. -/
  feed : Source → σ → σ
  source_feed : ∀ (s : Source) (c : σ), source (feed s c) = s

export Fed (feed)

instance : Fed Source := ⟨id, fun s _ => s, fun _ _ => rfl⟩

/-- Memory is admitted always, streams only where nothing is borrowed. -/
def Source.Admitted (streams : Prop) (s : Source) : Prop := s.kind = .memory ∨ streams

/-- Payloads such as admitted sources yield. -/
def Payload.Admitted (streams : Prop) (p : Payload) : Prop := p.borrowed = true ∨ streams

theorem Storage.take_admitted {streams : Prop} {storage : Storage}
    (h : streams → storage = .owned) {p : Payload} (hp : p.Admitted streams) :
    storage.take p = pure p.bytes := by
  rcases hp with hborrowed | hstreams
  · exact storage.take_lent hborrowed
  · rw [h hstreams]
    rfl

section Scanning

variable {σ α β : Type} [Fed σ] {streams : Prop} {m n least : Nat} {s s' : Source}

/-- Two runs on sources of which the second holds a front of what the first
holds: they succeed with one answer, or the second falls short of what the first
consumed, or both fail. The second may fail otherwise than the first where it
has come to the end of what it holds. -/
inductive Beside (least : Nat) (s s' : Source) (r r' : EStateM.Result Error σ α) : Prop
  | ok (a : α) (c : σ) (n : Nat) (hleast : least ≤ n) (hn : n ≤ s'.left.length)
      (h : r = .ok a (feed (s.advance n) c)) (h' : r' = .ok a (feed (s'.advance n) c))
  | short (a : α) (c c' : σ) (n : Nat) (e : Shortage) (hleast : least ≤ n)
      (hn : s'.left.length < n) (hlong : n ≤ s.left.length)
      (h : r = .ok a (feed (s.advance n) c)) (h' : r' = .error (.endOfData e) c')
  | error (e e' : Error) (c c' : σ) (h : r = .error e c) (h' : r' = .error e' c')
      (hkind : e.kind = e'.kind ∨ e'.kind = .endOfData ∧ s'.left.length < s.left.length)

namespace Beside

variable {r r' r'' : EStateM.Result Error σ α}

theorem mono (h : Beside n s s' r r') (hle : m ≤ n) : Beside m s s' r r' := by
  cases h with
  | ok a c k hleast hk h h' => exact .ok a c k (Nat.le_trans hle hleast) hk h h'
  | short a c c' k e hleast hk hlong h h' =>
      exact .short a c c' k e (Nat.le_trans hle hleast) hk hlong h h'
  | error e e' c c' h h' hkind => exact .error e e' c c' h h' hkind

/-- What goes on side by side after both have consumed `k` bytes. -/
theorem after {k : Nat} (h : Beside n (s.advance k) (s'.advance k) r r') (hm : m ≤ k)
    (hk : k ≤ s'.left.length) : Beside (m + n) s s' r r' := by
  cases h with
  | ok a c j hleast hj h h' =>
      rw [Source.left_advance, List.length_drop] at hj
      rw [Source.advance_advance] at h h'
      exact .ok a c (k + j) (by omega) (by omega) h h'
  | short a c c' j e hleast hj hlong h h' =>
      rw [Source.left_advance, List.length_drop] at hj hlong
      rw [Source.advance_advance] at h
      exact .short a c c' (k + j) e (by omega) (by omega) (by omega) h h'
  | error e e' c c' h h' hkind =>
      rw [Source.left_advance, Source.left_advance, List.length_drop, List.length_drop] at hkind
      exact .error e e' c c' h h' (hkind.imp_right fun ⟨he, hlt⟩ => ⟨he, by omega⟩)

/-- What the first run goes on to do by itself, after `k` bytes, while the second
has come to its end. -/
theorem alone {k : Nat} {e : Shortage} {c' : σ}
    (h : Beside n (s.advance k) (s.advance k) r r'') (h' : r' = .error (.endOfData e) c')
    (hm : m ≤ k) (hk : k ≤ s.left.length) (hn : s'.left.length < k + n)
    (hless : s'.left.length < s.left.length) : Beside (m + n) s s' r r' := by
  cases h with
  | ok a c j hleast hj h _ =>
      rw [Source.left_advance, List.length_drop] at hj
      rw [Source.advance_advance] at h
      exact .short a c c' (k + j) e (by omega) (by omega) (by omega) h h'
  | short a c _ j _ hleast hj hlong _ _ => exact absurd hlong (Nat.not_le.mpr hj)
  | error e₁ _ c _ h _ _ => exact .error e₁ _ c c' h h' (.inr ⟨rfl, hless⟩)

end Beside

/-- The step does not look beyond what it consumes, which is at least `least`
bytes if it succeeds. -/
def Scans (streams : Prop) (least : Nat) (step : EStateM Error σ α) : Prop :=
  ∀ (c : σ) (s s' : Source), s.Admitted streams → s'.Admitted streams → s'.left <+: s.left →
    Beside least s s' (step (feed s c)) (step (feed s' c))

/-- The step answers with the marker that comes next. -/
structure Peeks (step : EStateM Error σ Marker) : Prop where
  cons : ∀ (c : σ) (s : Source) (b : UInt8) (rest : Bytes), s.left = b :: rest →
    step (feed s c) = .ok (.ofByte b) (feed s c)
  nil : ∀ (c : σ) (s : Source), s.left = [] →
    ∃ (e : Shortage) (c' : σ), step (feed s c) = .error (.endOfData e) c'

/-- Once looked at, the first byte has to be consumed. -/
theorem Peeks.scans {look : EStateM Error σ Marker} {f : Marker → EStateM Error σ α}
    (h : Peeks look) (hf : ∀ m, Scans streams (n + 1) (f m)) :
    Scans streams (n + 1) (look >>= f) := by
  intro c s s' hs hs' hfront
  cases hl : s.left with
  | nil =>
      have hl' : s'.left = [] := List.prefix_nil.mp (hl ▸ hfront)
      obtain ⟨e, t, hrun⟩ := h.nil c s hl
      obtain ⟨e', t', hrun'⟩ := h.nil c s' hl'
      exact .error _ _ t t' (bind_of_error hrun) (bind_of_error hrun') (.inl rfl)
  | cons b rest =>
      rw [bind_of_ok (h.cons c s b rest hl)]
      cases hl' : s'.left with
      | nil =>
          obtain ⟨e, c', hrun⟩ := h.nil c s' hl'
          have hself := hf (.ofByte b) c s s hs hs (List.prefix_refl _)
          rw [bind_of_error hrun]
          have halone : Beside (0 + (n + 1)) s s' (f (.ofByte b) (feed s c))
              (.error (.endOfData e) c') :=
            hself.alone (k := 0) rfl (Nat.le_refl 0) (Nat.zero_le _)
              (by rw [hl', List.length_nil]; omega) (by rw [hl, hl']; exact Nat.succ_pos _)
          rwa [Nat.zero_add] at halone
      | cons b' rest' =>
          obtain rfl : b' = b := by
            rw [hl, hl'] at hfront
            exact (List.cons_prefix_cons.mp hfront).1
          rw [bind_of_ok (h.cons c s' b' rest' hl')]
          exact hf (.ofByte b') c s s' hs hs' hfront

namespace Scans

variable {step : EStateM Error σ α} {f : α → EStateM Error σ β}

theorem mono (h : Scans streams n step) (hle : m ≤ n) : Scans streams m step :=
  fun c s s' hs hs' hfront => (h c s s' hs hs' hfront).mono hle

theorem congr {step' : EStateM Error σ α} (h : Scans streams n step')
    (heq : ∀ (c : σ) (s : Source), s.Admitted streams → step (feed s c) = step' (feed s c)) :
    Scans streams n step := by
  intro c s s' hs hs' hfront
  rw [heq c s hs, heq c s' hs']
  exact h c s s' hs hs' hfront

theorem pure (a : α) : Scans streams 0 (pure a : EStateM Error σ α) := fun c _ _ _ _ _ =>
  .ok a c 0 (Nat.le_refl 0) (Nat.zero_le _) rfl rfl

theorem throw (e : Error) : Scans streams n (throw e : EStateM Error σ α) := fun _ _ _ _ _ _ =>
  .error e e _ _ rfl rfl (.inl rfl)

theorem bind (h : Scans streams m step) (hf : ∀ a, Scans streams n (f a)) :
    Scans streams (m + n) (step >>= f) := by
  intro c s s' hs hs' hfront
  cases h c s s' hs hs' hfront with
  | ok a d k hleast hk hrun hrun' =>
      rw [bind_of_ok hrun, bind_of_ok hrun']
      exact (hf a d (s.advance k) (s'.advance k) hs hs' (hfront.drop k)).after hleast hk
  | short a d d' k e hleast hk hlong hrun hrun' =>
      rw [bind_of_ok hrun]
      have hself := hf a d (s.advance k) (s.advance k) hs hs (List.prefix_refl _)
      exact hself.alone (bind_of_error hrun') hleast hlong (Nat.lt_add_right n hk)
        (Nat.lt_of_lt_of_le hk hlong)
  | error e e' d d' hrun hrun' hkind =>
      exact .error e e' d d' (bind_of_error hrun) (bind_of_error hrun') hkind

/-- What is done with the answer consumes nothing that has to be counted. -/
theorem andThen (h : Scans streams n step) (hf : ∀ a, Scans streams 0 (f a)) :
    Scans streams n (step >>= f) := h.bind hf

/-- What consumes nothing that has to be counted, before something that does. -/
theorem before (h : Scans streams 0 step) (hf : ∀ a, Scans streams n (f a)) :
    Scans streams n (step >>= f) := Nat.zero_add n ▸ h.bind hf

theorem map (h : Scans streams n step) (f : α → β) : Scans streams n (do return f (← step)) :=
  h.andThen fun a => .pure (f a)

theorem discard (h : Scans streams n step) : Scans streams n (discard step) :=
  (h.map fun _ => ()).congr fun c s _ => discard_apply step (feed s c)

theorem ofExcept (x : Except Error α) :
    Scans streams 0 (Get.ofExcept x : EStateM Error σ α) := by
  cases x with
  | ok a => exact .pure a
  | error e => exact .throw e

theorem checkArity (expected found : Nat) :
    Scans streams 0 (checkArity expected found : EStateM Error σ Unit) := by
  rw [MsgPack.checkArity]
  split
  · exact .pure ()
  · exact .throw _

theorem collect (h : Scans streams n step) (k : Nat) : Scans streams 0 (collect step k) := by
  induction k with
  | zero => exact .pure []
  | succ k ih =>
      rw [collect_succ]
      exact (h.mono (Nat.zero_le n)).bind fun a => ih.map (a :: ·)

theorem times {step : EStateM Error σ Unit} (h : Scans streams n step) (k : Nat) :
    Scans streams 0 (times step k) := by
  induction k with
  | zero => exact .pure ()
  | succ k ih => exact (h.mono (Nat.zero_le n)).bind fun _ => ih

/-- A look at the state, but for the source. -/
theorem consult {f : σ → EStateM Error σ α} (hf : ∀ (c : σ) (s : Source), f (feed s c) = f c)
    (h : ∀ c, Scans streams n (f c)) : Scans streams n (get >>= f) := by
  refine fun c s s' hs hs' hfront => ?_
  have hrun : ∀ t : Source, (get >>= f : EStateM Error σ α) (feed t c) = f c (feed t c) :=
    fun t => by rw [bind_of_ok (get_apply _), hf]
  rw [hrun s, hrun s']
  exact h c c s s' hs hs' hfront

/-- A change of the state, but for the source. -/
theorem modify {change : σ → σ} (h : ∀ (c : σ) (s : Source), change (feed s c) = feed s (change c)) :
    Scans streams 0 (modify change : EStateM Error σ PUnit) := fun c s s' _ _ _ =>
  .ok .unit (change c) 0 (Nat.le_refl 0) (Nat.zero_le _)
    ((modify_apply change _).trans (congrArg _ (h c s)))
    ((modify_apply change _).trans (congrArg _ (h c s')))

end Scans

end Scanning

/-! ### Entities -/

namespace Get

variable {α β : Type} {streams : Prop} {least : Nat}

theorem peek_nil {s : Source} (hl : s.left = []) :
    ∃ (e : Shortage) (t : Source), peek s = .error (.endOfData e) t := by
  cases hk : s.kind <;> simp [peek, hl, hk]

theorem peeks_marker : Peeks marker where
  cons _ _ _ _ hl := marker_cons hl
  nil _ _ hl := by
    obtain ⟨e, t, hpeek⟩ := peek_nil hl
    exact ⟨e, t, bind_of_error hpeek⟩

theorem scans_byte : Scans streams 1 byte := by
  intro c s s' _ _ hfront
  have hnil : ∀ t : Source, t.left = [] → ∃ e u, byte t = .error (.endOfData e) u := fun t ht => by
    obtain ⟨e, u, hpeek⟩ := peek_nil ht
    exact ⟨e, u, bind_of_error hpeek⟩
  cases hl : s.left with
  | nil =>
      obtain ⟨e, t, hrun⟩ := hnil s hl
      obtain ⟨e', t', hrun'⟩ := hnil s' (List.prefix_nil.mp (hl ▸ hfront))
      exact .error _ _ t t' hrun hrun' (.inl rfl)
  | cons b rest =>
      have hrun : byte s = .ok b (s.advance 1) := byte_cons hl
      cases hl' : s'.left with
      | nil =>
          obtain ⟨e, t, hrun'⟩ := hnil s' hl'
          exact .short b c t 1 e (Nat.le_refl 1) (by simp [hl']) (by simp [hl]) hrun hrun'
      | cons b' rest' =>
          obtain rfl : b' = b := by
            rw [hl, hl'] at hfront
            exact (List.cons_prefix_cons.mp hfront).1
          exact .ok b' c 1 (Nat.le_refl 1) (by simp [hl']) hrun (byte_cons hl')

theorem scans_after {next : Get α} (h : Scans streams least next) :
    Scans streams (1 + least) (after next) :=
  scans_byte.discard.bind fun _ => h

theorem scans_refuse (expected : Expected) (m : Marker) :
    Scans streams least (refuse expected m : Get α) := .throw _

/-! ### Payloads

A payload in memory is a view into all that is left, and so what is made of it
has to be made of its bytes alone. -/

/-- The bytes of the next payload. -/
theorem scans_bytes (n : Nat) : Scans streams n (do return (← read n).bytes) := by
  intro c s s' _ _ hfront
  have hread : ∀ t : Source, n ≤ t.left.length →
      (do return (← read n).bytes : Get Bytes) t = .ok (t.left.take n) (t.advance n) := by
    intro t hn
    have hlen : (t.left.take n).length = n := by rw [List.length_take, Nat.min_eq_left hn]
    obtain ⟨p, -, hbytes, hp⟩ := (lends_read n).complete (s := t)
      (List.take_append_drop n t.left).symm ⟨hlen, rfl⟩
    rw [bind_of_ok hp, hbytes, hlen]
    rfl
  have hshort : ∀ t : Source, t.left.length < n →
      ∃ e u, (do return (← read n).bytes : Get Bytes) t = .error (.endOfData e) u := by
    intro t hn
    obtain ⟨e, u, hp⟩ := read_short (s := t) (n := n) (by rw [List.length_take]; omega)
    exact ⟨e, u, bind_of_error hp⟩
  have hlen := hfront.length_le
  by_cases hn : n ≤ s'.left.length
  · have htake : s'.left.take n = s.left.take n := by
      obtain ⟨rest, hrest⟩ := hfront
      rw [← hrest, List.take_append_of_le_length hn]
    refine .ok (s.left.take n) c n (Nat.le_refl n) hn (hread s (Nat.le_trans hn hlen)) ?_
    rw [← htake]
    exact hread s' hn
  · obtain ⟨e', u', hrun'⟩ := hshort s' (Nat.lt_of_not_le hn)
    by_cases hn' : n ≤ s.left.length
    · exact .short _ c u' n e' (Nat.le_refl n) (Nat.lt_of_not_le hn) hn' (hread s hn') hrun'
    · obtain ⟨e, u, hrun⟩ := hshort s (Nat.lt_of_not_le hn')
      exact .error _ _ u u' hrun hrun' (.inl rfl)

/-- A payload of which only the bytes matter. -/
theorem scans_read {n : Nat} {f : Payload → Get β} {k : Bytes → Get β}
    (hf : ∀ p, p.Admitted streams → f p = k p.bytes) (hk : ∀ bs, Scans streams least (k bs)) :
    Scans streams (n + least) (read n >>= f) := by
  refine ((scans_bytes n).bind hk).congr fun c s hs => ?_
  show (read n >>= f) s = _
  simp only [bind_assoc, pure_bind]
  show _ = (read n >>= fun p => k p.bytes) s
  by_cases hn : (s.left.take n).length = n
  · obtain ⟨p, hborrowed, -, hp⟩ := (lends_read n).complete (s := s)
      (List.take_append_drop n s.left).symm ⟨hn, rfl⟩
    rw [bind_of_ok hp, bind_of_ok hp, hf p (hs.imp_left hborrowed)]
  · obtain ⟨e, u, hp⟩ := read_short hn
    rw [bind_of_error hp, bind_of_error hp]

theorem scans_number (width : Nat) : Scans streams width (number width) :=
  scans_read (k := fun bs => pure (Bytes.toNat bs)) (fun _ _ => rfl) fun _ => .pure _

theorem scans_length (expected : Expected) (lengthOf : Marker → Option (Nat ⊕ Nat)) :
    Scans streams 1 (length expected lengthOf) := by
  refine peeks_marker.scans fun m => ?_
  split
  · exact scans_refuse expected m
  · exact scans_after (.pure _)
  · exact (scans_after (scans_number _)).mono (Nat.le_add_right 1 _)

theorem scans_extensionHeader : Scans streams 1 extensionHeader :=
  (scans_length _ _).andThen fun _ =>
    ((scans_number 1).mono (Nat.zero_le 1)).andThen fun _ => .pure _

theorem scans_text {f : Payload → Get β} {k : Bytes → Get β}
    (hf : ∀ p, p.Admitted streams → f p = k p.bytes) (hk : ∀ bs, Scans streams 0 (k bs)) :
    Scans streams 1 (text >>= f) := by
  rw [text, bind_assoc]
  refine (scans_length _ _).andThen fun n => ?_
  rw [bind_assoc]
  have hchecked : ∀ bs, Scans streams 0
      (if Utf8.isValid bs then k bs else throw (.invalidData (.invalidUtf8 n))) := by
    intro bs
    split
    · exact hk bs
    · exact .throw _
  refine (scans_read (fun p hp => ?_) hchecked).mono (Nat.zero_le _)
  rw [← hf p hp]
  split <;> rfl

theorem scans_binary {f : Payload → Get β} {k : Bytes → Get β}
    (hf : ∀ p, p.Admitted streams → f p = k p.bytes) (hk : ∀ bs, Scans streams 0 (k bs)) :
    Scans streams 1 (binary >>= f) := by
  rw [binary, bind_assoc]
  exact (scans_length _ _).andThen fun n => (scans_read hf hk).mono (Nat.zero_le _)

theorem scans_extension {f : Int8 → Payload → Get β} {k : Int8 → Bytes → Get β}
    (hf : ∀ type p, p.Admitted streams → f type p = k type p.bytes)
    (hk : ∀ type bs, Scans streams 0 (k type bs)) :
    Scans streams 1 (do let (type, p) ← extension; f type p) := by
  rw [extension]
  simp only [bind_assoc, pure_bind]
  exact scans_extensionHeader.andThen fun e =>
    (scans_read (hf e.1) (hk e.1)).mono (Nat.zero_le _)

/-! ### Scalars -/

theorem scans_nil : Scans streams 1 nil := by
  refine peeks_marker.scans fun m => ?_
  split
  · exact scans_after (.pure ())
  · exact scans_refuse _ m

theorem scans_bool : Scans streams 1 bool := by
  refine peeks_marker.scans fun m => ?_
  split
  · exact scans_after (.pure true)
  · exact scans_after (.pure false)
  · exact scans_refuse _ m

theorem scans_exactInt (t : IntType) : Scans streams 1 (exactInt t) := by
  refine peeks_marker.scans fun m => ?_
  split
  · exact scans_after (.pure _)
  · split
    · exact (scans_after ((scans_number _).map t.ofBits)).mono (Nat.le_add_right 1 _)
    · exact scans_refuse _ m

theorem scans_exactFloat (p : Precision) : Scans streams 1 (exactFloat p) := by
  refine peeks_marker.scans fun m => ?_
  split
  · exact (scans_after ((scans_number _).map FloatBits.ofNat)).mono (Nat.le_add_right 1 _)
  · exact scans_refuse _ m

theorem scans_anyNumber : Scans streams 1 anyNumber := by
  refine peeks_marker.scans fun m => ?_
  split
  · exact (scans_exactInt .u8).map Number.ofInt
  · exact (scans_exactInt .i8).map Number.ofInt
  · split
    · exact ((scans_after (scans_number _)).mono (Nat.le_add_right 1 _)).map _
    · exact (scans_exactFloat _).map _
    · exact scans_refuse _ m

/-- A number where markers of its kinds are let through. -/
theorem scans_fitting {P : Option EntityType → Prop} [DecidablePred P]
    (target? : Number → Option α) (expected : Expected) :
    Scans streams 1 (fitting P target? expected) := by
  refine peeks_marker.scans fun m => ?_
  split
  · refine scans_anyNumber.andThen fun n => ?_
    cases target? n with
    | none => exact .throw _
    | some a => exact .pure a
  · exact scans_refuse _ m

theorem scans_int (policy : DecodePolicy) (t : IntType) : Scans streams 1 (policy.int t) := by
  cases policy with
  | exact => exact scans_exactInt t
  | widening => exact scans_fitting (P := (· = some .integer)) _ _
  | lenient => exact scans_fitting (P := (Option.any EntityType.isNumber ·)) _ _

theorem scans_float (policy : DecodePolicy) (p : Precision) : Scans streams 1 (policy.float p) := by
  cases policy with
  | exact => exact scans_exactFloat p
  | widening => exact scans_fitting (P := (· = some .floatingPoint)) _ _
  | lenient => exact scans_fitting (P := (Option.any EntityType.isNumber ·)) _ _

/-! ### Content -/

section Content

variable {storage : Storage}

theorem scans_takeText (hs : streams → storage = .owned) :
    Scans streams 1 (do storage.take (← text)) :=
  scans_text (k := pure) (fun _ hp => Storage.take_admitted hs hp) .pure

theorem scans_takeBinary (hs : streams → storage = .owned) :
    Scans streams 1 (do storage.take (← binary)) :=
  scans_binary (k := pure) (fun _ hp => Storage.take_admitted hs hp) .pure

theorem scans_takeExtension (hs : streams → storage = .owned) :
    Scans streams 1 (do
      let (type, p) ← extension
      return (⟨type, ← storage.take p⟩ : Extension)) := by
  refine scans_extension (f := fun type p => do return (⟨type, ← storage.take p⟩ : Extension))
    (k := fun type bs => pure ⟨type, bs⟩) (fun type p hp => ?_) fun type bs => .pure _
  rw [Storage.take_admitted hs hp, pure_bind]

theorem scans_fixedExtension (capacity : Nat) :
    Scans streams 1 (do
      let (type, n) ← extensionHeader
      if n ≤ capacity then
        let p ← read n
        ofExcept (FixedExtension.ofExtension capacity ⟨type, p.bytes⟩)
      else
        throw (.invalidData (.extensionCapacity n capacity))) := by
  refine scans_extensionHeader.andThen fun e => ?_
  dsimp only
  split
  · exact (scans_read (k := fun bs => ofExcept (FixedExtension.ofExtension capacity ⟨e.1, bs⟩))
      (fun _ _ => rfl) fun bs => .ofExcept _).mono (Nat.zero_le _)
  · exact .throw _

theorem scans_timestamp (l : TimestampLayout) : Scans streams 1 (timestamp l) := by
  refine peeks_marker.scans fun m => ?_
  split
  · refine scans_extensionHeader.andThen fun e => ?_
    refine (Scans.ofExcept (Timestamp.checkType e.1)).andThen fun _ => ?_
    exact (scans_read (k := fun bs => ofExcept (Timestamp.ofExtension l ⟨e.1, bs⟩))
      (fun _ _ => rfl) fun bs => .ofExcept _).mono (Nat.zero_le _)
  · exact scans_refuse _ m

theorem scans_instant (u : TimeUnit) : Scans streams 1 (instant u) := by
  have hlayout : ∀ l : TimestampLayout, Scans streams 1 (do
      let t ← ofExcept (← timestamp l).toInstant
      return t.truncate u : Get (Instant u)) := fun l =>
    (scans_timestamp l).andThen fun t => (Scans.ofExcept t.toInstant).map (Instant.truncate u)
  refine peeks_marker.scans fun m => ?_
  dsimp only
  split
  · exact hlayout .seconds32
  · exact hlayout .packed64
  · exact hlayout .wide96
  · exact (scans_refuse _ m).map _

theorem scans_skipLeaf : Scans streams 1 skipLeaf := by
  have hread : ∀ n, Scans streams n (discard (read n)) := fun n =>
    ((scans_bytes n).map fun _ => ()).congr fun c s _ => by
      show discard (read n) s = _
      simp only [discard_apply, bind_assoc, pure_bind]
      rfl
  have hsized : ∀ n, Scans streams 1 (discard (read (1 + n))) := fun n =>
    (hread _).mono (Nat.le_add_right 1 n)
  have hannounced : ∀ {header : Get Nat}, Scans streams 1 header →
      Scans streams 1 (do discard (read (← header))) := fun h =>
    h.andThen fun n => (hread n).mono (Nat.zero_le n)
  have hextension : Scans streams 1 (discard extension) :=
    (scans_extension (f := fun _ _ => pure ()) (k := fun _ _ => pure ()) (fun _ _ _ => rfl)
      fun _ _ => .pure ()).congr fun c s _ => discard_apply extension s
  refine peeks_marker.scans fun m => ?_
  split
  · exact hannounced (scans_length _ _)
  · exact hannounced (scans_length _ _)
  · exact hannounced (scans_length _ _)
  · exact hannounced (scans_length _ _)
  · exact hannounced (scans_length _ _)
  · exact hannounced (scans_length _ _)
  · exact hsized _
  · split
    · exact hextension
    · split
      · exact hsized _
      · exact hsized _
      · exact scans_byte.discard

end Content

end Get

end MsgPack
