import MsgPack.Proofs.Timestamp

/-!
The layouts of timestamps. Each is a bijection between the timestamps that it
holds and the payloads of its size whose nanoseconds are less than a second. An
instant is written in the first layout that holds its seconds and nanoseconds,
and those of any timestamp make up an instant that the clock counts or are
refused as beyond it.
-/

namespace MsgPack

namespace TimestampLayout

/-- The seconds that stand in a payload. -/
def secondsIn : TimestampLayout → Bytes → Int
  | seconds32, data => Bytes.toNat data
  | packed64, data => (Bytes.toNat data % 2 ^ 34 : Nat)
  | wide96, data => Timestamp.signed64 (Bytes.toNat (data.drop 4))

/-- The nanoseconds that stand in a payload. -/
def nanosIn : TimestampLayout → Bytes → Nat
  | seconds32, _ => 0
  | packed64, data => Bytes.toNat data / 2 ^ 34
  | wide96, data => Bytes.toNat (data.take 4)

variable {l : TimestampLayout} {data data' : Bytes}

/-- Of what the size of a payload allows, only the nanoseconds can be too many. -/
theorem holds_iff (hsize : data.length = l.payloadSize) :
    l.Holds (l.secondsIn data) (l.nanosIn data) ↔ l.nanosIn data < nanosPerSecond := by
  cases l with
  | seconds32 =>
      have hlt := Bytes.toNat_lt data
      rw [hsize] at hlt
      simp only [Holds, secondsIn, nanosIn, payloadSize] at *
      exact ⟨fun _ => by decide, fun _ => ⟨by omega, by omega, trivial⟩⟩
  | packed64 =>
      simp only [Holds, secondsIn, nanosIn]
      omega
  | wide96 =>
      have hlt := Bytes.toNat_lt (data.drop 4)
      rw [List.length_drop, hsize] at hlt
      simp only [Holds, secondsIn, nanosIn, payloadSize, Timestamp.signed64] at *
      split <;> omega

/-- A payload is no more than its seconds and nanoseconds. -/
theorem payload_ext (hsize : data.length = l.payloadSize) (hsize' : data'.length = l.payloadSize)
    (hseconds : l.secondsIn data = l.secondsIn data') (hnanos : l.nanosIn data = l.nanosIn data') :
    data = data' := by
  have hlen := hsize.trans hsize'.symm
  cases l with
  | seconds32 =>
      exact Bytes.toNat_inj hlen (Int.ofNat_inj.mp hseconds)
  | packed64 =>
      simp only [secondsIn, nanosIn] at hseconds hnanos
      exact Bytes.toNat_inj hlen (by omega)
  | wide96 =>
      have hfront : data.take 4 = data'.take 4 :=
        Bytes.toNat_inj (by simp [hlen]) hnanos
      have hlt := Bytes.toNat_lt (data.drop 4)
      have hlt' := Bytes.toNat_lt (data'.drop 4)
      rw [List.length_drop, hsize] at hlt
      rw [List.length_drop, hsize'] at hlt'
      have hback : data.drop 4 = data'.drop 4 := by
        refine Bytes.toNat_inj (by simp [hlen]) ?_
        simp only [secondsIn, Timestamp.signed64, payloadSize] at hseconds hlt hlt'
        split at hseconds <;> split at hseconds <;> omega
      rw [← List.take_append_drop 4 data, hfront, hback, List.take_append_drop]

end TimestampLayout

namespace Timestamp

variable {l : TimestampLayout} {stamp : Timestamp l}

theorem nanoseconds_lt (stamp : Timestamp l) : stamp.nanoseconds < nanosPerSecond := by
  have hholds := stamp.holds
  cases l with
  | seconds32 =>
      rw [hholds.2.2]
      decide
  | packed64 => exact hholds.2.2
  | wide96 => exact hholds.2.2

/-! ### Payloads -/

theorem make_eq_ok_iff {seconds : Int} {nanoseconds : Nat} :
    make l seconds nanoseconds = .ok stamp ↔
      stamp.seconds = seconds ∧ stamp.nanoseconds = nanoseconds := by
  refine ⟨fun h => ?_, ?_⟩
  · rw [make] at h
    split at h
    · cases h
      exact ⟨rfl, rfl⟩
    · cases h
  · rintro ⟨rfl, rfl⟩
    exact make_of_holds stamp.holds

theorem ofPayload_eq (data : Bytes) :
    ofPayload l data = make l (l.secondsIn data) (l.nanosIn data) := by
  cases l <;> rfl

theorem toExtension_parts (stamp : Timestamp l) :
    stamp.seconds = l.secondsIn stamp.toExtension.data ∧
      stamp.nanoseconds = l.nanosIn stamp.toExtension.data := by
  have h := stamp.ofPayload_toExtension
  rw [ofPayload_eq] at h
  exact make_eq_ok_iff.mp h

theorem ofExtension_eq_ok_iff {e : Extension} :
    ofExtension l e = .ok stamp ↔ e.type = extensionType ∧ e.data.length = l.payloadSize ∧
      stamp.seconds = l.secondsIn e.data ∧ stamp.nanoseconds = l.nanosIn e.data := by
  show (checkType _ >>= fun _ => checkSize l _ >>= fun _ => ofPayload l _) = _ ↔ _
  rw [ofPayload_eq]
  by_cases htype : e.type = extensionType
  · have hcheckType : checkType e.type = .ok () := if_pos htype
    rw [hcheckType]
    by_cases hsize : e.data.length = l.payloadSize
    · have hcheckSize : checkSize l e.data.length = .ok () := if_pos hsize
      rw [hcheckSize]
      exact make_eq_ok_iff.trans (by simp [htype, hsize])
    · have hcheckSize : checkSize l e.data.length = .error _ := if_neg hsize
      rw [hcheckSize]
      refine ⟨fun h => ?_, fun h => absurd h.2.1 hsize⟩
      cases h
  · have hcheckType : checkType e.type = .error _ := if_neg htype
    rw [hcheckType]
    refine ⟨fun h => ?_, fun h => absurd h.1 htype⟩
    cases h

theorem toExtension_of_ofExtension {e : Extension} (h : ofExtension l e = .ok stamp) :
    stamp.toExtension = e := by
  obtain ⟨htype, hsize, hseconds, hnanos⟩ := ofExtension_eq_ok_iff.mp h
  obtain ⟨hseconds', hnanos'⟩ := stamp.toExtension_parts
  have hdata : stamp.toExtension.data = e.data :=
    TimestampLayout.payload_ext stamp.length_toExtension hsize (hseconds'.symm.trans hseconds)
      (hnanos'.symm.trans hnanos)
  obtain ⟨type, data⟩ := e
  cases htype
  exact congrArg (Extension.mk extensionType) hdata

/-- Each layout is a bijection. A timestamp is found again in its extension; an
extension is read exactly if it has the type code and the size of the layout and
nanoseconds that are less than a second, and it is the extension of what is read
of it. Seconds and nanoseconds are each read of their own part of the payload. So
no two extensions are read as one timestamp. -/
theorem extension_bijection (l : TimestampLayout) :
    (∀ stamp : Timestamp l, ofExtension l stamp.toExtension = .ok stamp) ∧
    (∀ e : Extension,
      ((∃ stamp, ofExtension l e = .ok stamp) ↔
        e.type = -1 ∧ e.data.length = l.payloadSize ∧ l.nanosIn e.data < nanosPerSecond) ∧
      ∀ stamp, ofExtension l e = .ok stamp → stamp.toExtension = e ∧
        stamp.seconds = l.secondsIn e.data ∧ stamp.nanoseconds = l.nanosIn e.data) ∧
    ∀ (e e' : Extension) (stamp : Timestamp l), ofExtension l e = .ok stamp →
      ofExtension l e' = .ok stamp → e = e' := by
  refine ⟨ofExtension_toExtension, fun e => ⟨⟨?_, ?_⟩, fun stamp h => ?_⟩, fun e e' stamp h h' => ?_⟩
  · rintro ⟨stamp, h⟩
    obtain ⟨htype, hsize, -, hnanos⟩ := ofExtension_eq_ok_iff.mp h
    exact ⟨htype, hsize, hnanos ▸ stamp.nanoseconds_lt⟩
  · rintro ⟨htype, hsize, hnanos⟩
    have hholds := (TimestampLayout.holds_iff hsize).mpr hnanos
    exact ⟨⟨_, _, hholds⟩, ofExtension_eq_ok_iff.mpr ⟨htype, hsize, rfl, rfl⟩⟩
  · exact ⟨toExtension_of_ofExtension h, (ofExtension_eq_ok_iff.mp h).2.2⟩
  · exact (toExtension_of_ofExtension h).symm.trans (toExtension_of_ofExtension h')

/-- One second and one nanosecond, packed. -/
theorem extension_bijection_packed :
    let e : Extension := ⟨-1, [0, 0, 0, 4, 0, 0, 0, 1]⟩
    ∃ stamp, ofExtension .packed64 e = .ok stamp ∧ stamp.toExtension = e ∧
      stamp.seconds = 1 ∧ stamp.nanoseconds = 1 := by
  intro e
  obtain ⟨hread, hexact⟩ := (extension_bijection .packed64).2.1 e
  obtain ⟨stamp, h⟩ := hread.mpr ⟨rfl, rfl, by decide⟩
  obtain ⟨hext, hseconds, hnanos⟩ := hexact stamp h
  exact ⟨stamp, h, hext, hseconds.trans (by decide), hnanos.trans (by decide)⟩

/-! ### Instants -/

variable {t : Instant .nanoseconds}

/-- An instant has no other whole seconds and nanoseconds than its own. -/
theorem parts_unique {seconds : Int} {nanoseconds : Nat} (hnanos : nanoseconds < nanosPerSecond)
    (hcount : seconds * nanosPerSecond + nanoseconds = t.count) :
    seconds = t.floorSeconds ∧ nanoseconds = t.subsecond := by
  have hspec := t.split_spec
  simp only [nanosPerSecond] at *
  omega

theorem ofInstant_of_holds (h : l.Holds t.floorSeconds t.subsecond) :
    ofInstant l t = .ok ⟨_, _, h⟩ := by
  cases l with
  | seconds32 => exact (dif_pos h.2.2).trans (dif_pos ⟨h.1, h.2.1⟩)
  | packed64 => exact dif_pos ⟨h.1, h.2.1⟩
  | wide96 => rfl

theorem parts_of_ofInstant (h : ofInstant l t = .ok stamp) :
    stamp.seconds = t.floorSeconds ∧ stamp.nanoseconds = t.subsecond := by
  cases l with
  | seconds32 =>
      rw [ofInstant] at h
      split at h
      · split at h
        · cases h
          exact ⟨rfl, rfl⟩
        · cases h
      · cases h
  | packed64 =>
      rw [ofInstant] at h
      split at h
      · cases h
        exact ⟨rfl, rfl⟩
      · cases h
  | wide96 =>
      cases h
      exact ⟨rfl, rfl⟩

/-- A layout takes the instants whose parts it holds. -/
theorem exists_ofInstant_iff :
    (∃ stamp, ofInstant l t = .ok stamp) ↔ l.Holds t.floorSeconds t.subsecond := by
  refine ⟨?_, fun h => ⟨_, ofInstant_of_holds h⟩⟩
  rintro ⟨stamp, h⟩
  obtain ⟨hseconds, hnanos⟩ := parts_of_ofInstant h
  rw [← hseconds, ← hnanos]
  exact stamp.holds

/-- The layout can be made of the instant. -/
def Takes (l : TimestampLayout) (t : Instant .nanoseconds) : Prop :=
  ∃ stamp, ofInstant l t = .ok stamp

theorem toInstant_cases (stamp : Timestamp l) :
    ¬ (-clockLimit ≤ stamp.seconds ∧ stamp.seconds ≤ clockLimit) ∧
        stamp.toInstant = .error (.invalidData (.beyondClock stamp.seconds)) ∨
      (-clockLimit ≤ stamp.seconds ∧ stamp.seconds ≤ clockLimit) ∧
        ∃ t, stamp.toInstant = .ok t ∧
          t.count = stamp.seconds * nanosPerSecond + stamp.nanoseconds := by
  by_cases hclock : -clockLimit ≤ stamp.seconds ∧ stamp.seconds ≤ clockLimit
  · exact .inr ⟨hclock, _, dif_pos hclock, rfl⟩
  · exact .inl ⟨hclock, dif_neg hclock⟩

/-- An instant is split into its whole seconds and the nanoseconds after them, in
the only way there is, and written in the first layout that takes it: in the
shortest if that one does, in the packed one if of the two only that one does,
and otherwise in the widest, with just these parts. The parts of a timestamp are
refused if the clock is not trusted with the seconds. Otherwise they make up an
instant, within 64 bits at every step, that is split into them again. -/
theorem smallest_exact :
    (∀ t : Instant .nanoseconds,
      (t.split.2 < nanosPerSecond ∧ t.split.1 * nanosPerSecond + t.split.2 = t.count ∧
        ∀ (seconds : Int) (nanoseconds : Nat), nanoseconds < nanosPerSecond →
          seconds * nanosPerSecond + nanoseconds = t.count → t.split = (seconds, nanoseconds)) ∧
      ((smallest t).1 = .seconds32 ↔ Takes .seconds32 t) ∧
      ((smallest t).1 = .packed64 ↔ ¬ Takes .seconds32 t ∧ Takes .packed64 t) ∧
      ((smallest t).1 = .wide96 ↔ ¬ Takes .seconds32 t ∧ ¬ Takes .packed64 t) ∧
      ofInstant (smallest t).1 t = .ok (smallest t).2 ∧
      t.split = ((smallest t).2.seconds, (smallest t).2.nanoseconds)) ∧
    ∀ (l : TimestampLayout) (stamp : Timestamp l),
      ¬ (-clockLimit ≤ stamp.seconds ∧ stamp.seconds ≤ clockLimit) ∧
          stamp.toInstant = .error (.invalidData (.beyondClock stamp.seconds)) ∨
        (-clockLimit ≤ stamp.seconds ∧ stamp.seconds ≤ clockLimit) ∧ ∃ t,
          stamp.toInstant = .ok t ∧
          t.count = stamp.seconds * nanosPerSecond + stamp.nanoseconds ∧
          -0x8000000000000000 ≤ stamp.seconds * nanosPerSecond ∧
          stamp.seconds * nanosPerSecond + stamp.nanoseconds < 0x8000000000000000 ∧
          t.split = (stamp.seconds, stamp.nanoseconds) := by
  refine ⟨fun t => ⟨⟨t.split_spec.2, t.split_spec.1, ?_⟩, ?_⟩, fun l stamp => ?_⟩
  · intro seconds nanoseconds hnanos hcount
    obtain ⟨rfl, rfl⟩ := parts_unique hnanos hcount
    rfl
  · simp only [Takes, exists_ofInstant_iff]
    obtain ⟨hshort, heq⟩ | ⟨hshort, ⟨hpacked, heq⟩ | ⟨hpacked, hwide, heq⟩⟩ := smallest_cases t
    · rw [heq]
      exact ⟨by simp [hshort], by simp [hshort], by simp [hshort], ofInstant_of_holds hshort, rfl⟩
    · rw [heq]
      exact ⟨by simp [hshort], by simp [hshort, hpacked], by simp [hpacked],
        ofInstant_of_holds hpacked, rfl⟩
    · rw [heq]
      exact ⟨by simp [hshort], by simp [hpacked], by simp [hshort, hpacked],
        ofInstant_of_holds hwide, rfl⟩
  · obtain hrefused | ⟨hclock, t, hinstant, hcount⟩ := stamp.toInstant_cases
    · exact .inl hrefused
    · have hnanos := stamp.nanoseconds_lt
      obtain ⟨hseconds, hrest⟩ := parts_unique hnanos hcount.symm
      refine .inr ⟨hclock, t, hinstant, hcount, ?_, ?_, by rw [hseconds, hrest]; rfl⟩
      · simp only [clockLimit, nanosPerSecond] at *
        omega
      · simp only [clockLimit, nanosPerSecond] at *
        omega

/-- The nanosecond before the epoch, and a second beyond 32 bits. -/
theorem smallest_exact_before :
    let t : Instant .nanoseconds := ⟨-1, by decide⟩
    let late : Timestamp .wide96 := ⟨0x100000000, 5, by decide⟩
    t.split = (-1, 999999999) ∧ (smallest t).1 = .wide96 ∧
      (smallest t).2.seconds = -1 ∧ (smallest t).2.nanoseconds = 999999999 ∧
      ∃ t', late.toInstant = .ok t' ∧ t'.split = (0x100000000, 5) := by
  intro t late
  obtain ⟨⟨-, -, hunique⟩, -, -, hwide, -, hparts⟩ := smallest_exact.1 t
  have hsplit : t.split = (-1, 999999999) := hunique _ _ (by decide) (by decide)
  obtain ⟨hseconds, hnanos⟩ := Prod.mk.inj (hparts.symm.trans hsplit)
  refine ⟨hsplit, hwide.mpr ⟨?_, ?_⟩, hseconds, hnanos, ?_⟩
  · exact fun h => absurd (exists_ofInstant_iff.mp h) (by decide)
  · exact fun h => absurd (exists_ofInstant_iff.mp h) (by decide)
  · obtain ⟨hbeyond, -⟩ | ⟨-, t', hinstant, -, -, -, hsplit'⟩ := smallest_exact.2 .wide96 late
    · exact absurd (by decide) hbeyond
    · exact ⟨t', hinstant, hsplit'⟩

end Timestamp

end MsgPack
