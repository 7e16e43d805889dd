import MsgPack.Proofs.Value.Decode

/-!
Readers that fit a number into a target. They let markers of certain kinds
through, read what number there is, and find its place among the numbers of the
target. All readers of numbers are made in this way but those that know a single
encoding.
-/

namespace MsgPack

open Grammar (Numeral)

/-- What is left once the front of the input has been read. -/
theorem Source.advance_mk {kind : SourceKind} {position : Nat} (bs rest : Bytes) :
    (⟨kind, bs ++ rest, position⟩ : Source).advance bs.length =
      ⟨kind, rest, position + bs.length⟩ := by
  simp [advance]

namespace DecodePolicy

variable {α : Type} {n : Number} {x? : Option α} {a : α} {e : Error} {s u : Source}

theorem fit_eq_ok_iff : fit n x? s = .ok a u ↔ x? = some a ∧ u = s := by
  cases x? <;> simp [fit, eq_comm]

theorem fit_eq_error_iff :
    fit n x? s = .error e u ↔ x? = none ∧ e = .invalidData (.outOfRange n) ∧ u = s := by
  cases x? <;> simp [fit, eq_comm]

end DecodePolicy

namespace Get

variable {α : Type} {P : Option EntityType → Prop} [DecidablePred P] {target? : Number → Option α}
  {expected : Expected} {bs rest : Bytes} {n : Number} {s u : Source} {a : α}

/-- A number for a target, where markers of certain kinds are let through. -/
def fitting (P : Option EntityType → Prop) [DecidablePred P] (target? : Number → Option α)
    (expected : Expected) : Get α := do
  let m ← marker
  if P m.code.entity? then
    let n ← anyNumber
    DecodePolicy.fit n (target? n)
  else
    refuse expected m

theorem int_widening (t : IntType) :
    DecodePolicy.widening.int t = fitting (· = some .integer) (·.toInt? t) .integer := rfl

theorem int_lenient (t : IntType) :
    DecodePolicy.lenient.int t =
      fitting (Option.any EntityType.isNumber ·) (DecodePolicy.integerOf? t) .number := rfl

theorem float_widening (p : Precision) :
    DecodePolicy.widening.float p = fitting (· = some .floatingPoint) (·.toFloat? p) .float := rfl

theorem float_lenient (p : Precision) :
    DecodePolicy.lenient.float p =
      fitting (Option.any EntityType.isNumber ·) (DecodePolicy.floatOf? p) .number := rfl

theorem isNumber_entity (n : Number) : (some n.entity).any EntityType.isNumber := by
  cases n <;> rfl

/-- A number of a kind that is let through is read and fitted in. -/
theorem fitting_of_numeral (h : Numeral bs n) (hl : s.left = bs ++ rest)
    (hP : P (some n.entity)) :
    fitting P target? expected s = DecodePolicy.fit n (target? n) (s.advance bs.length) := by
  obtain ⟨b, tail, rfl, he⟩ := begins_numeral h
  unfold fitting
  rw [bind_of_ok (marker_cons hl), he, if_pos hP, bind_of_ok (accepts_anyNumber.complete hl h)]

/-- What begins as an entity of another kind is left where it is. -/
theorem fitting_refused {b : UInt8} (hl : s.left = b :: rest)
    (hP : ¬ P (Marker.ofByte b).code.entity?) :
    fitting P target? expected s =
      .error (.unexpectedFormat (.marker expected (.ofByte b))) s := by
  unfold fitting
  rw [bind_of_ok (marker_cons hl), if_neg hP]
  rfl

/-- The numbers of a language that are let through and have a place. -/
theorem accepts_fitting :
    Accepts (fitting P target? expected) fun bs a =>
      ∃ n, Numeral bs n ∧ P (some n.entity) ∧ target? n = some a where
  complete := by
    rintro s bs rest a hl ⟨n, hn, hP, ha⟩
    rw [fitting_of_numeral hn hl hP, ha]
    rfl
  sound := by
    intro s t a h
    obtain ⟨m, u, hm, h⟩ := bind_eq_ok_iff.mp h
    cases hl : s.left with
    | nil => cases hk : s.kind <;> simp [marker, bind_apply, peek, hl, hk] at hm
    | cons b tail =>
        obtain ⟨rfl, rfl⟩ := EStateM.Result.ok.inj ((marker_cons hl).symm.trans hm)
        split at h
        · next hP =>
            obtain ⟨n, v, hn, hfit⟩ := bind_eq_ok_iff.mp h
            obtain ⟨bs, rest, hbs, hnum, rfl⟩ := accepts_anyNumber.sound hn
            obtain ⟨ha, rfl⟩ := DecodePolicy.fit_eq_ok_iff.mp hfit
            refine ⟨bs, rest, hl ▸ hbs, ⟨n, hnum, ?_, ha⟩, rfl⟩
            obtain ⟨_, _, rfl, he⟩ := begins_numeral hnum
            obtain ⟨rfl, -⟩ := List.cons.inj (hl.symm.trans hbs)
            rwa [he] at hP
        · cases h

end Get

end MsgPack
