import MsgPack.Extension
import MsgPack.Timestamp.Layout

/-!
Timestamps, which are extensions of type -1, and instants of a clock that
counts nanoseconds in 64 bits. A layout holds a range of instants; an instant
is written in the smallest layout that holds it.
-/

namespace MsgPack

namespace TimestampLayout

/-- The range of a layout. -/
def Holds : TimestampLayout → Int → Nat → Prop
  | seconds32, s, n => 0 ≤ s ∧ s < 0x100000000 ∧ n = 0
  | packed64, s, n => 0 ≤ s ∧ s < 0x400000000 ∧ n < nanosPerSecond
  | wide96, s, n => -0x8000000000000000 ≤ s ∧ s < 0x8000000000000000 ∧ n < nanosPerSecond

instance (l : TimestampLayout) (s : Int) (n : Nat) : Decidable (l.Holds s n) := by
  cases l <;> exact inferInstanceAs (Decidable (_ ∧ _))

end TimestampLayout

/-- Seconds since the epoch, and nanoseconds after that. -/
structure Timestamp (l : TimestampLayout) where
  seconds : Int
  nanoseconds : Nat
  holds : l.Holds seconds nanoseconds
  deriving DecidableEq

/-- A unit of time, which is a whole number of nanoseconds. -/
structure TimeUnit where
  nanos : Nat
  pos : 0 < nanos
  deriving DecidableEq, Repr

namespace TimeUnit

def nanoseconds : TimeUnit := ⟨1, by decide⟩

def milliseconds : TimeUnit := ⟨1000000, by decide⟩

def seconds : TimeUnit := ⟨1000000000, by decide⟩

@[simp] theorem nanos_nanoseconds : nanoseconds.nanos = 1 := rfl

end TimeUnit

/-- A number of units since the epoch, as far as the clock counts. -/
structure Instant (u : TimeUnit) where
  count : Int
  inClock : -0x8000000000000000 ≤ count * u.nanos ∧ count * u.nanos < 0x8000000000000000
  deriving DecidableEq

namespace Instant

def ofCount? (u : TimeUnit) (count : Int) : Option (Instant u) :=
  if h : _ then some ⟨count, h⟩ else none

def epoch (u : TimeUnit) : Instant u := ⟨0, by simp⟩

def toNanos {u : TimeUnit} (t : Instant u) : Instant .nanoseconds :=
  ⟨t.count * u.nanos, by simpa using t.inClock⟩

/-- Whole units take up no more than what they were cut off from. -/
theorem cut_bounds {n : Nat} (hn : 0 < n) {count : Int} (hcount : 0 ≤ count) :
    0 ≤ count / n * n ∧ count / n * n ≤ count := by
  have hpos : 0 < (n : Int) := Int.natCast_pos.mpr hn
  exact ⟨Int.mul_nonneg (Int.ediv_nonneg hcount (Int.le_of_lt hpos)) (Int.le_of_lt hpos),
    Int.ediv_mul_le count (Int.ne_of_gt hpos)⟩

/-- The instant in units of `u`, cut off toward the epoch. -/
def truncate (u : TimeUnit) (t : Instant .nanoseconds) : Instant u :=
  ⟨if 0 ≤ t.count then t.count / u.nanos else -(-t.count / u.nanos), by
    have h := t.inClock
    rw [TimeUnit.nanos_nanoseconds] at h
    split
    · next hcount =>
      have hcut := cut_bounds u.pos hcount
      omega
    · next hcount =>
      have hcut := cut_bounds u.pos (by omega : 0 ≤ -t.count)
      rw [Int.neg_mul]
      omega⟩

/-- Whole seconds and the nanoseconds after them. Division cuts off toward the
epoch, so what is left over before the epoch borrows a second. -/
def split (t : Instant .nanoseconds) : Int × Nat :=
  let seconds := t.count.tdiv nanosPerSecond
  let rest := t.count.tmod nanosPerSecond
  if rest < 0 then (seconds - 1, (rest + nanosPerSecond).toNat) else (seconds, rest.toNat)

/-- Whole seconds, counted downward before the epoch. -/
def floorSeconds (t : Instant .nanoseconds) : Int := t.split.1

def subsecond (t : Instant .nanoseconds) : Nat := t.split.2

/-- The two parts make up the instant, and the rest is less than a second. -/
theorem split_spec (t : Instant .nanoseconds) :
    t.floorSeconds * nanosPerSecond + t.subsecond = t.count ∧ t.subsecond < nanosPerSecond := by
  have hparts : t.count.tdiv nanosPerSecond * nanosPerSecond + t.count.tmod nanosPerSecond =
      t.count := Int.tdiv_mul_add_tmod ..
  have hlow : -(nanosPerSecond : Int) < t.count.tmod nanosPerSecond :=
    Int.lt_tmod_of_pos _ (by decide)
  have hhigh : t.count.tmod nanosPerSecond < nanosPerSecond := Int.tmod_lt_of_pos _ (by decide)
  rw [floorSeconds, subsecond, split]
  generalize t.count.tdiv nanosPerSecond = seconds, t.count.tmod nanosPerSecond = rest at *
  split <;> simp only [nanosPerSecond] at * <;> omega

theorem floorSeconds_bounds (t : Instant .nanoseconds) :
    -0x8000000000000000 ≤ t.floorSeconds ∧ t.floorSeconds < 0x8000000000000000 := by
  have hclock := t.inClock
  have hspec := t.split_spec
  simp only [TimeUnit.nanos_nanoseconds, nanosPerSecond] at *
  omega

theorem subsecond_lt (t : Instant .nanoseconds) : t.subsecond < nanosPerSecond := t.split_spec.2

end Instant

namespace Timestamp

variable {l : TimestampLayout}

/-- Why a pair of numbers is no timestamp of a layout. -/
def complaint (l : TimestampLayout) (seconds : Int) (nanoseconds : Nat) : Defect :=
  match l with
  | .seconds32 => .secondsOutside32 seconds
  | .packed64 =>
    if 0x400000000 ≤ seconds then .secondsBeyond34 seconds.toNat else .nanoseconds nanoseconds
  | .wide96 => .nanoseconds nanoseconds

def make (l : TimestampLayout) (seconds : Int) (nanoseconds : Nat) :
    Except Error (Timestamp l) :=
  if h : l.Holds seconds nanoseconds then .ok ⟨seconds, nanoseconds, h⟩
  else .error (.invalidData (complaint l seconds nanoseconds))

def epoch (l : TimestampLayout) : Timestamp l :=
  ⟨0, 0, by cases l <;> decide⟩

/-- The type code that marks an extension as a timestamp. -/
def extensionType : Int8 := -1

def toExtension (t : Timestamp l) : Extension where
  type := extensionType
  data :=
    match l with
    | .seconds32 => Bytes.ofNat 4 t.seconds.toNat
    | .packed64 => Bytes.ofNat 8 (t.nanoseconds * 2 ^ 34 + t.seconds.toNat)
    | .wide96 => Bytes.ofNat 4 t.nanoseconds ++ Bytes.ofNat 8 (t.seconds % 2 ^ 64).toNat

def checkType (type : Int8) : Except Error Unit :=
  if type = extensionType then .ok () else .error (.invalidData (.timestampType type.toInt))

/-- A payload of the wrong size is a mismatch for the two short layouts and a
defect for the longest. -/
def checkSize (l : TimestampLayout) (size : Nat) : Except Error Unit :=
  if size = l.payloadSize then .ok ()
  else .error <|
    match l with
    | .wide96 => .invalidData (.timestamp96Length size)
    | _ => .unexpectedFormat (.timestampLength l.payloadSize size)

/-- The two's complement reading of 64 bits. -/
def signed64 (n : Nat) : Int := if n < 2 ^ 63 then n else n - 2 ^ 64

def ofPayload (l : TimestampLayout) (data : Bytes) : Except Error (Timestamp l) :=
  match l with
  | .seconds32 => make .seconds32 (Bytes.toNat data) 0
  | .packed64 =>
    let packed := Bytes.toNat data
    make .packed64 (packed % 2 ^ 34 : Nat) (packed / 2 ^ 34)
  | .wide96 => make .wide96 (signed64 (Bytes.toNat (data.drop 4))) (Bytes.toNat (data.take 4))

def ofExtension (l : TimestampLayout) (e : Extension) : Except Error (Timestamp l) := do
  checkType e.type
  checkSize l e.data.length
  ofPayload l e.data

/-- The greatest number of whole seconds, on either side of the epoch, that the
clock is trusted with. -/
def clockLimit : Nat := 9223372035

def toInstant (t : Timestamp l) : Except Error (Instant .nanoseconds) :=
  if h : -clockLimit ≤ t.seconds ∧ t.seconds ≤ clockLimit then
    .ok ⟨t.seconds * nanosPerSecond + t.nanoseconds, by
      have := t.holds
      cases l <;>
        simp only [TimestampLayout.Holds, clockLimit, TimeUnit.nanos_nanoseconds,
          nanosPerSecond] at * <;>
        omega⟩
  else
    .error (.invalidData (.beyondClock t.seconds))

def ofInstant (l : TimestampLayout) (t : Instant .nanoseconds) : Except Error (Timestamp l) :=
  let s := t.floorSeconds
  let n := t.subsecond
  match l with
  | .seconds32 =>
    if h : n = 0 then
      if h' : 0 ≤ s ∧ s < 0x100000000 then .ok ⟨s, n, h'.1, h'.2, h⟩
      else .error (.invalidData (.secondsOutside32 s))
    else
      .error (.invalidData (.fractionOfSecond n))
  | .packed64 =>
    if h : 0 ≤ s ∧ s < 0x400000000 then .ok ⟨s, n, h.1, h.2, t.subsecond_lt⟩
    else .error (.invalidData (.secondsOutside34 s))
  | .wide96 => .ok ⟨s, n, t.floorSeconds_bounds.1, t.floorSeconds_bounds.2, t.subsecond_lt⟩

/-- An instant in the smallest layout that holds it. -/
def smallest (t : Instant .nanoseconds) : (l : TimestampLayout) × Timestamp l :=
  let s := t.floorSeconds
  let n := t.subsecond
  if h : n = 0 ∧ 0 ≤ s ∧ s < 0x100000000 then
    ⟨.seconds32, s, n, h.2.1, h.2.2, h.1⟩
  else if h : 0 ≤ s ∧ s < 0x400000000 then
    ⟨.packed64, s, n, h.1, h.2, t.subsecond_lt⟩
  else
    ⟨.wide96, s, n, t.floorSeconds_bounds.1, t.floorSeconds_bounds.2, t.subsecond_lt⟩

/-- The layout that a payload size announces. -/
def layoutOfSize? (size : Nat) : Option TimestampLayout :=
  [TimestampLayout.seconds32, .packed64, .wide96].find? (·.payloadSize == size)

/-- The instant in an extension of any of the layouts. -/
def instantOfExtension (u : TimeUnit) (e : Extension) : Except Error (Instant u) :=
  match layoutOfSize? e.data.length with
  | some l => do return (← (← ofExtension l e).toInstant).truncate u
  | none => .error (.unexpectedFormat (.noTimestampLength e.data.length))

end Timestamp

end MsgPack
