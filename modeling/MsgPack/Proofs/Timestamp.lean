import MsgPack.Proofs.Bytes
import MsgPack.Timestamp.Basic

/-!
Timestamps come back from their extensions, whatever the layout, and instants
from the smallest layout that holds them, as long as the clock is trusted with
their seconds. With other seconds an instant is written all the same, and not
read again.
-/

namespace MsgPack

namespace Instant

variable {u : TimeUnit}

/-- Whether the clock is trusted with the whole seconds of an instant. -/
def Trusted (t : Instant u) : Prop :=
  -Timestamp.clockLimit ≤ t.toNanos.floorSeconds ∧
    t.toNanos.floorSeconds ≤ Timestamp.clockLimit

instance (t : Instant u) : Decidable t.Trusted := inferInstanceAs (Decidable (_ ∧ _))

/-- What comes of an instant when it is read again: writers take them all,
readers those that the clock is trusted with. -/
def reread (t : Instant u) : Except Error (Instant u) :=
  if t.Trusted then .ok t else .error (.invalidData (.beyondClock t.toNanos.floorSeconds))

end Instant

namespace Timestamp

variable {l : TimestampLayout}

theorem make_of_holds {seconds : Int} {nanoseconds : Nat} (h : l.Holds seconds nanoseconds) :
    make l seconds nanoseconds = .ok ⟨seconds, nanoseconds, h⟩ := dif_pos h

theorem signed64_emod {s : Int} (hlo : -0x8000000000000000 ≤ s) (hhi : s < 0x8000000000000000) :
    signed64 (s % 2 ^ 64).toNat = s := by
  rw [signed64]
  split <;> omega

theorem length_toExtension (t : Timestamp l) : t.toExtension.data.length = l.payloadSize := by
  cases l <;> simp [toExtension, TimestampLayout.payloadSize]

theorem ofPayload_wide96 {nanos seconds : Bytes} (h : nanos.length = 4) :
    ofPayload .wide96 (nanos ++ seconds) =
      make .wide96 (signed64 (Bytes.toNat seconds)) (Bytes.toNat nanos) := by
  rw [ofPayload, List.drop_left' h, List.take_left' h]

theorem ofPayload_toExtension (t : Timestamp l) : ofPayload l t.toExtension.data = .ok t := by
  obtain ⟨s, n, h⟩ := t
  have h' := h
  cases l with
  | seconds32 =>
      obtain ⟨hlo, hhi, rfl⟩ := h'
      simp only [toExtension, ofPayload]
      rw [Bytes.toNat_ofNat (by omega), Int.toNat_of_nonneg hlo]
      exact make_of_holds h
  | packed64 =>
      obtain ⟨hlo, hhi, hn⟩ := h'
      replace hn : n < 1000000000 := hn
      have hseconds : ((n * 2 ^ 34 + s.toNat) % 2 ^ 34 : Nat) = s := by omega
      have hnanos : (n * 2 ^ 34 + s.toNat) / 2 ^ 34 = n := by omega
      simp only [toExtension, ofPayload]
      rw [Bytes.toNat_ofNat (by omega), hseconds, hnanos]
      exact make_of_holds h
  | wide96 =>
      obtain ⟨hlo, hhi, hn⟩ := h'
      replace hn : n < 1000000000 := hn
      simp only [toExtension]
      rw [ofPayload_wide96 (Bytes.length_ofNat 4 n), Bytes.toNat_ofNat (by omega),
        Bytes.toNat_ofNat (by omega), signed64_emod hlo hhi]
      exact make_of_holds h

/-- A timestamp is found again in its extension. -/
theorem ofExtension_toExtension (t : Timestamp l) : ofExtension l t.toExtension = .ok t := by
  have htype : checkType t.toExtension.type = .ok () := if_pos rfl
  have hsize : checkSize l t.toExtension.data.length = .ok () := if_pos t.length_toExtension
  show (checkType _ >>= fun _ => checkSize l _ >>= fun _ => ofPayload l _) = _
  rw [htype, hsize]
  exact t.ofPayload_toExtension

theorem layoutOfSize_payloadSize (l : TimestampLayout) : layoutOfSize? l.payloadSize = some l := by
  cases l <;> rfl

theorem payloadSize_of_layoutOfSize {size : Nat} (h : layoutOfSize? size = some l) :
    size = l.payloadSize := by
  rw [layoutOfSize?] at h
  have hfound := List.find?_some h
  exact (beq_iff_eq.mp hfound).symm

/-! ### Instants -/

theorem instant_ext {u : TimeUnit} {t t' : Instant u} (h : t.count = t'.count) : t = t' := by
  cases t
  cases t'
  cases h
  rfl

theorem truncate_toNanos {u : TimeUnit} (t : Instant u) : t.toNanos.truncate u = t := by
  -- a whole number of units is cut off exactly, on either side of the epoch
  have hpos : 0 < (u.nanos : Int) := Int.natCast_pos.mpr u.pos
  have hne := Int.ne_of_gt hpos
  apply instant_ext
  show (if 0 ≤ t.count * u.nanos then t.count * u.nanos / u.nanos
    else -(-(t.count * u.nanos) / u.nanos)) = t.count
  by_cases hcount : 0 ≤ t.count
  · rw [if_pos (Int.mul_nonneg hcount (Int.le_of_lt hpos)), Int.mul_ediv_cancel _ hne]
  · have hneg : t.count * u.nanos < 0 :=
      Int.mul_neg_of_neg_of_pos (Int.not_le.mp hcount) hpos
    rw [if_neg (Int.not_le.mpr hneg), ← Int.neg_mul, Int.mul_ediv_cancel _ hne, Int.neg_neg]

/-- The smallest layout is the first that holds the whole seconds and the rest. -/
theorem smallest_cases (t : Instant .nanoseconds) :
    (∃ h : TimestampLayout.seconds32.Holds t.floorSeconds t.subsecond,
        smallest t = ⟨.seconds32, _, _, h⟩) ∨
      ¬ TimestampLayout.seconds32.Holds t.floorSeconds t.subsecond ∧
        ((∃ h : TimestampLayout.packed64.Holds t.floorSeconds t.subsecond,
            smallest t = ⟨.packed64, _, _, h⟩) ∨
          ¬ TimestampLayout.packed64.Holds t.floorSeconds t.subsecond ∧
            ∃ h : TimestampLayout.wide96.Holds t.floorSeconds t.subsecond,
              smallest t = ⟨.wide96, _, _, h⟩) := by
  by_cases hshort : t.subsecond = 0 ∧ 0 ≤ t.floorSeconds ∧ t.floorSeconds < 0x100000000
  · exact .inl ⟨⟨hshort.2.1, hshort.2.2, hshort.1⟩, dif_pos hshort⟩
  · refine .inr ⟨fun h => hshort ⟨h.2.2, h.1, h.2.1⟩, ?_⟩
    by_cases hpacked : 0 ≤ t.floorSeconds ∧ t.floorSeconds < 0x400000000
    · exact .inl ⟨⟨hpacked.1, hpacked.2, t.subsecond_lt⟩,
        (dif_neg hshort).trans (dif_pos hpacked)⟩
    · exact .inr ⟨fun h => hpacked ⟨h.1, h.2.1⟩, _, (dif_neg hshort).trans (dif_neg hpacked)⟩

/-- The smallest layout keeps the whole seconds and the rest. -/
theorem smallest_parts (t : Instant .nanoseconds) :
    ∃ l stamp, smallest t = ⟨l, stamp⟩ ∧
      stamp.seconds = t.floorSeconds ∧ stamp.nanoseconds = t.subsecond := by
  obtain ⟨h, heq⟩ | ⟨-, ⟨h, heq⟩ | ⟨-, h, heq⟩⟩ := smallest_cases t <;>
    exact ⟨_, _, heq, rfl, rfl⟩

theorem toInstant_truncate {u : TimeUnit} {t : Instant u} {stamp : Timestamp l}
    (hseconds : stamp.seconds = t.toNanos.floorSeconds)
    (hnanos : stamp.nanoseconds = t.toNanos.subsecond) :
    (do return (← stamp.toInstant).truncate u) = t.reread := by
  rw [toInstant]
  rw [Instant.reread]
  by_cases hclock : t.Trusted
  · have hcount : stamp.seconds * nanosPerSecond + stamp.nanoseconds = t.toNanos.count := by
      rw [hseconds, hnanos]
      exact t.toNanos.split_spec.1
    have hseconds' : -clockLimit ≤ stamp.seconds ∧ stamp.seconds ≤ clockLimit := hseconds ▸ hclock
    rw [dif_pos hseconds', if_pos hclock]
    refine congrArg Except.ok (Eq.trans ?_ (truncate_toNanos t))
    exact congrArg (Instant.truncate u) (instant_ext hcount)
  · have hseconds' : ¬ (-clockLimit ≤ stamp.seconds ∧ stamp.seconds ≤ clockLimit) :=
      hseconds ▸ hclock
    rw [dif_neg hseconds', if_neg hclock, hseconds]
    rfl

/-- An instant in the extension that it is written as. -/
theorem instantOfExtension_smallest {u : TimeUnit} (t : Instant u) :
    instantOfExtension u (smallest t.toNanos).2.toExtension = t.reread := by
  obtain ⟨l, stamp, heq, hseconds, hnanos⟩ := smallest_parts t.toNanos
  rw [heq]
  rw [instantOfExtension]
  rw [length_toExtension, layoutOfSize_payloadSize]
  dsimp only
  rw [ofExtension_toExtension]
  exact toInstant_truncate hseconds hnanos

end Timestamp

end MsgPack
