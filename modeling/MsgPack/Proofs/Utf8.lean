import MsgPack.Proofs.Bytes
import MsgPack.Utf8

/-!
What the encoder of characters spells is valid, and is read as the one
character that it was. Valid strings are the spellings of characters one behind
the other, each of one list of them, and of no other.
-/

namespace MsgPack.Utf8

theorem toNat_continuation (bits : Nat) : (continuation bits).toNat = 0x80 + bits % 64 :=
  toNat_byte (by omega)

theorem accepts_of_next {s t : State} {b : UInt8} (h : s.next b = some t) (bs : Bytes) :
    s.accepts (b :: bs) = t.accepts bs := by
  simp only [State.accepts, h]

section Tails

variable {cp least : Nat}

/-- A character is accepted by the bytes that it still owes. -/
theorem accepts_one (hleast : least ≤ cp) (hscalar : IsScalar cp) :
    State.accepts (.inside 1 (cp / 64) least) [continuation cp] := by
  have hlead : (0x80 + cp % 64) / 64 = 2 := by omega
  have hvalue : 64 * (cp / 64) + (0x80 + cp % 64) % 64 = cp := by omega
  have hnext : State.next (.inside 1 (cp / 64) least) (continuation cp) = some .between := by
    simp only [State.next, toNat_continuation, hlead, hvalue, Nat.le_refl, if_true]
    rw [if_pos ⟨hleast, hscalar⟩]
  rw [accepts_of_next hnext]
  rfl

theorem next_inside (owed value least bits : Nat) :
    State.next (.inside (owed + 2) value least) (continuation bits) =
      some (.inside (owed + 1) (64 * value + bits % 64) least) := by
  have hlead : (0x80 + bits % 64) / 64 = 2 := by omega
  have hlow : (0x80 + bits % 64) % 64 = bits % 64 := by omega
  simp only [State.next, toNat_continuation, hlead, hlow, if_true]
  rw [if_neg (by omega)]
  rfl

theorem accepts_two (hleast : least ≤ cp) (hscalar : IsScalar cp) :
    State.accepts (.inside 2 (cp / 4096) least) [continuation (cp / 64), continuation cp] := by
  have hvalue : 64 * (cp / 4096) + cp / 64 % 64 = cp / 64 := by omega
  rw [accepts_of_next (next_inside 0 ..), hvalue]
  exact accepts_one hleast hscalar

theorem accepts_three (hleast : least ≤ cp) (hscalar : IsScalar cp) :
    State.accepts (.inside 3 (cp / 262144) least)
      [continuation (cp / 4096), continuation (cp / 64), continuation cp] := by
  have hvalue : 64 * (cp / 262144) + cp / 4096 % 64 = cp / 4096 := by omega
  rw [accepts_of_next (next_inside 1 ..), hvalue]
  exact accepts_two hleast hscalar

end Tails

/-- The four ranges of scalar values and how they are spelled. -/
theorem encode_cases {cp : Nat} {bs : Bytes} (h : encode? cp = some bs) :
    IsScalar cp ∧
      (cp < 0x80 ∧ bs = [UInt8.ofNat cp] ∨
        0x80 ≤ cp ∧ cp < 0x800 ∧ bs = [UInt8.ofNat (0xc0 + cp / 64), continuation cp] ∨
        0x800 ≤ cp ∧ cp < 0x10000 ∧
          bs = [UInt8.ofNat (0xe0 + cp / 4096), continuation (cp / 64), continuation cp] ∨
        0x10000 ≤ cp ∧ bs = [UInt8.ofNat (0xf0 + cp / 262144), continuation (cp / 4096),
          continuation (cp / 64), continuation cp]) := by
  unfold encode? at h
  split at h
  · next hscalar =>
      refine ⟨hscalar, ?_⟩
      split at h
      · next h1 => exact .inl ⟨h1, (Option.some.inj h).symm⟩
      · next h1 =>
          split at h
          · next h2 => exact .inr (.inl ⟨by omega, h2, (Option.some.inj h).symm⟩)
          · next h2 =>
              split at h
              · next h3 => exact .inr (.inr (.inl ⟨by omega, h3, (Option.some.inj h).symm⟩))
              · next h3 => exact .inr (.inr (.inr ⟨by omega, (Option.some.inj h).symm⟩))
  · cases h

theorem length_of_encode {cp : Nat} {bs : Bytes} (h : encode? cp = some bs) : bs.length ≤ 4 := by
  obtain ⟨-, ⟨-, rfl⟩ | ⟨-, -, rfl⟩ | ⟨-, -, rfl⟩ | ⟨-, rfl⟩⟩ := encode_cases h <;> simp

theorem isValid_of_encode {cp : Nat} {bs : Bytes} (h : encode? cp = some bs) : isValid bs := by
  obtain ⟨hscalar, ⟨h1, rfl⟩ | ⟨h1, h2, rfl⟩ | ⟨h1, h2, rfl⟩ | ⟨h1, rfl⟩⟩ := encode_cases h
  -- the first byte says how many bytes are owed, and the least character that may be spelled so
  · have hfirst : State.next .between (.ofNat cp) = some .between := by
      simp only [State.next, State.first, toNat_byte (show cp < 256 by omega)]
      rw [if_pos h1]
    exact accepts_of_next hfirst []
  · have hfirst :
        State.next .between (.ofNat (0xc0 + cp / 64)) = some (.inside 1 (cp / 64) 0x80) := by
      simp only [State.next, State.first, toNat_byte (show 0xc0 + cp / 64 < 256 by omega)]
      rw [if_neg (by omega), if_pos (by omega), show (0xc0 + cp / 64) % 32 = cp / 64 by omega]
    exact (accepts_of_next hfirst _).trans (accepts_one h1 hscalar)
  · have hfirst : State.next .between (.ofNat (0xe0 + cp / 4096)) =
        some (.inside 2 (cp / 4096) 0x800) := by
      simp only [State.next, State.first, toNat_byte (show 0xe0 + cp / 4096 < 256 by omega)]
      rw [if_neg (by omega), if_neg (by omega), if_pos (by omega),
        show (0xe0 + cp / 4096) % 16 = cp / 4096 by omega]
    exact (accepts_of_next hfirst _).trans (accepts_two h1 hscalar)
  · have hle := hscalar.1
    have hfirst : State.next .between (.ofNat (0xf0 + cp / 262144)) =
        some (.inside 3 (cp / 262144) 0x10000) := by
      simp only [State.next, State.first, toNat_byte (show 0xf0 + cp / 262144 < 256 by omega)]
      rw [if_neg (by omega), if_neg (by omega), if_neg (by omega), if_pos (by omega),
        show (0xf0 + cp / 262144) % 8 = cp / 262144 by omega]
    exact (accepts_of_next hfirst _).trans (accepts_three h1 hscalar)

/-- A character is read back from its spelling. -/
theorem single_of_encode {cp : Nat} {bs : Bytes} (h : encode? cp = some bs) :
    single? bs = some cp := by
  obtain ⟨hscalar, ⟨h1, rfl⟩ | ⟨h1, h2, rfl⟩ | ⟨h1, h2, rfl⟩ | ⟨h1, rfl⟩⟩ := encode_cases h
  · simp only [single?, toNat_byte (show cp < 256 by omega)]
    rw [if_pos h1]
    rfl
  · simp only [single?, toNat_byte (show 0xc0 + cp / 64 < 256 by omega)]
    rw [if_neg (show ¬ 0xc0 + cp / 64 < 0x80 by omega),
      if_pos (show (0xc0 + cp / 64) / 32 = 6 by omega)]
    simp only [List.length_cons, List.length_nil, if_true, List.foldl_cons, List.foldl_nil,
      toNat_continuation]
    rw [show 64 * ((0xc0 + cp / 64) % 32) + (0x80 + cp % 64) % 64 = cp by omega]
  · simp only [single?, toNat_byte (show 0xe0 + cp / 4096 < 256 by omega)]
    rw [if_neg (show ¬ 0xe0 + cp / 4096 < 0x80 by omega),
      if_neg (show ¬ (0xe0 + cp / 4096) / 32 = 6 by omega),
      if_pos (show (0xe0 + cp / 4096) / 16 = 14 by omega)]
    simp only [List.length_cons, List.length_nil, if_true, List.foldl_cons, List.foldl_nil,
      toNat_continuation]
    rw [show 64 * (64 * ((0xe0 + cp / 4096) % 16) + (0x80 + cp / 64 % 64) % 64) +
      (0x80 + cp % 64) % 64 = cp by omega]
  · have hle := hscalar.1
    simp only [single?, toNat_byte (show 0xf0 + cp / 262144 < 256 by omega)]
    rw [if_neg (show ¬ 0xf0 + cp / 262144 < 0x80 by omega),
      if_neg (show ¬ (0xf0 + cp / 262144) / 32 = 6 by omega),
      if_neg (show ¬ (0xf0 + cp / 262144) / 16 = 14 by omega)]
    simp only [List.length_cons, List.length_nil, if_true, List.foldl_cons, List.foldl_nil,
      toNat_continuation]
    rw [show 64 * (64 * (64 * ((0xf0 + cp / 262144) % 8) + (0x80 + cp / 4096 % 64) % 64) +
      (0x80 + cp / 64 % 64) % 64) + (0x80 + cp % 64) % 64 = cp by omega]

/-! ### Spellings of several characters -/

/-- The spellings of characters, one behind the other. -/
def spelled (cps : List Nat) : Bytes := (appendAll [] cps).1

@[simp] theorem spelled_nil : spelled [] = [] := rfl

theorem spelled_cons {cp : Nat} {bs : Bytes} (h : encode? cp = some bs) (cps : List Nat) :
    spelled (cp :: cps) = bs ++ spelled cps := by
  simp [spelled, appendAll, h]

theorem encode_of_isScalar {cp : Nat} (h : IsScalar cp) :
    encode? cp = some ((encode? cp).getD []) := by
  unfold encode?
  rw [if_pos h]
  split
  · rfl
  · split
    · rfl
    · split <;> rfl

theorem encode_of_not_isScalar {cp : Nat} (h : ¬ IsScalar cp) : encode? cp = none := if_neg h

theorem encode_ne_nil {cp : Nat} {bs : Bytes} (h : encode? cp = some bs) : bs ≠ [] := by
  obtain ⟨-, ⟨-, rfl⟩ | ⟨-, -, rfl⟩ | ⟨-, -, rfl⟩ | ⟨-, rfl⟩⟩ := encode_cases h <;>
    exact List.cons_ne_nil _ _

/-- What is accepted ends between characters, so that others may follow. -/
theorem accepts_append {s : State} {bs : Bytes} (h : s.accepts bs) (rest : Bytes) :
    s.accepts (bs ++ rest) = isValid rest := by
  induction bs generalizing s with
  | nil =>
      obtain rfl : s = .between := eq_of_beq h
      rfl
  | cons b bs ih =>
      cases hnext : s.next b with
      | none => simp [State.accepts, hnext] at h
      | some t =>
          rw [accepts_of_next hnext] at h
          rw [List.cons_append, accepts_of_next hnext]
          exact ih h

theorem isValid_spelled {cps : List Nat} (h : ∀ cp ∈ cps, IsScalar cp) : isValid (spelled cps) := by
  induction cps with
  | nil => rfl
  | cons cp cps ih =>
      rw [List.forall_mem_cons] at h
      have hcp := encode_of_isScalar h.1
      rw [spelled_cons hcp]
      exact (accepts_append (isValid_of_encode hcp) _).trans (ih h.2)

/-! ### Reading the characters of a valid string -/

/-- The last `n` bytes of the spelling of a character. -/
def continuations : (n : Nat) → (cp : Nat) → Bytes
  | 0, _ => []
  | n + 1, cp => continuation (cp / 64 ^ n) :: continuations n cp

theorem eq_continuation {b : UInt8} {bits : Nat} (hlead : b.toNat / 64 = 2)
    (hbits : b.toNat % 64 = bits % 64) : b = continuation bits := by
  apply UInt8.toNat_inj.mp
  rw [toNat_continuation]
  omega

/-- A byte within a character goes on with it or ends it. -/
theorem next_inside_cases {owed value least : Nat} {b : UInt8} {t : State}
    (h : State.next (.inside (owed + 1) value least) b = some t) :
    b.toNat / 64 = 2 ∧
      (owed = 0 ∧ t = .between ∧ least ≤ 64 * value + b.toNat % 64 ∧
          IsScalar (64 * value + b.toNat % 64) ∨
        0 < owed ∧ t = .inside owed (64 * value + b.toNat % 64) least) := by
  rw [State.next] at h
  split at h
  · next hlead =>
      refine ⟨hlead, ?_⟩
      dsimp only at h
      split at h
      · split at h
        · next howed hscalar =>
            cases h
            exact .inl ⟨by omega, rfl, hscalar⟩
        · cases h
      · next howed =>
          cases h
          exact .inr ⟨by omega, rfl⟩
  · cases h

theorem accepts_inside_inv {owed value least : Nat} {bs : Bytes}
    (h : State.accepts (.inside owed value least) bs) :
    ∃ b rest t, bs = b :: rest ∧ State.next (.inside owed value least) b = some t ∧
      t.accepts rest := by
  cases bs with
  | nil => cases eq_of_beq h
  | cons b rest =>
      cases hnext : State.next (.inside owed value least) b with
      | none => simp [State.accepts, hnext] at h
      | some t =>
          rw [accepts_of_next hnext] at h
          exact ⟨b, rest, t, rfl, hnext, h⟩

/-- What is accepted within a character begins with the rest of one. -/
theorem exists_of_accepts_inside {owed value least : Nat} {bs : Bytes}
    (h : State.accepts (.inside (owed + 1) value least) bs) :
    ∃ cp rest, bs = continuations (owed + 1) cp ++ rest ∧ cp / 64 ^ (owed + 1) = value ∧
      least ≤ cp ∧ IsScalar cp ∧ isValid rest := by
  induction owed generalizing value bs with
  | zero =>
      obtain ⟨b, rest, t, rfl, hnext, hrest⟩ := accepts_inside_inv h
      obtain ⟨hlead, ⟨-, rfl, hleast, hscalar⟩ | ⟨hpos, -⟩⟩ := next_inside_cases hnext
      · have hb : continuation ((64 * value + b.toNat % 64) / 64 ^ 0) = b :=
          (eq_continuation hlead (by omega)).symm
        refine ⟨_, rest, ?_, by omega, hleast, hscalar, hrest⟩
        rw [continuations, hb]
        rfl
      · exact absurd hpos (Nat.lt_irrefl 0)
  | succ owed ih =>
      obtain ⟨b, tail, t, rfl, hnext, htail⟩ := accepts_inside_inv h
      obtain ⟨hlead, ⟨hzero, -⟩ | ⟨-, rfl⟩⟩ := next_inside_cases hnext
      · exact absurd hzero (Nat.succ_ne_zero owed)
      · obtain ⟨cp, rest, rfl, hvalue, hleast, hscalar, hrest⟩ := ih htail
        have hb : continuation (cp / 64 ^ (owed + 1)) = b :=
          (eq_continuation hlead (by omega)).symm
        refine ⟨cp, rest, ?_, ?_, hleast, hscalar, hrest⟩
        · show _ = continuation (cp / 64 ^ (owed + 1)) :: (continuations (owed + 1) cp ++ rest)
          rw [hb]
        · rw [Nat.pow_succ, ← Nat.div_div_eq_div_mul, hvalue]
          omega

theorem accepts_cons_inv {s : State} {b : UInt8} {bs : Bytes} (h : s.accepts (b :: bs)) :
    ∃ t, s.next b = some t ∧ t.accepts bs := by
  cases hnext : s.next b with
  | none => simp [State.accepts, hnext] at h
  | some t => exact ⟨t, rfl, accepts_of_next hnext bs ▸ h⟩

/-- A valid string that is not empty begins with the spelling of a character. -/
theorem exists_encode_of_isValid {b : UInt8} {bs : Bytes} (h : isValid (b :: bs)) :
    ∃ cp first rest, encode? cp = some first ∧ b :: bs = first ++ rest ∧ isValid rest := by
  have hbyte := b.toNat_lt
  obtain ⟨t, hfirst, hrest⟩ := accepts_cons_inv h
  simp only [State.next, State.first] at hfirst
  split at hfirst
  · next hone =>
      cases hfirst
      have hscalar : IsScalar b.toNat := ⟨by omega, by omega⟩
      refine ⟨b.toNat, [b], bs, ?_, rfl, hrest⟩
      rw [encode?, if_pos hscalar, if_pos hone, UInt8.ofNat_toNat]
  · split at hfirst
    · cases hfirst
      obtain ⟨cp, rest, rfl, hvalue, hleast, hscalar, hvalid⟩ := exists_of_accepts_inside hrest
      refine ⟨cp, b :: continuations 1 cp, rest, ?_, rfl, hvalid⟩
      have hb : UInt8.ofNat (0xc0 + cp / 64) = b := by
        apply UInt8.toNat_inj.mp
        rw [toNat_byte] <;> omega
      rw [encode?, if_pos hscalar, if_neg (by omega), if_pos (by omega), hb]
      simp [continuations]
    · split at hfirst
      · cases hfirst
        obtain ⟨cp, rest, rfl, hvalue, hleast, hscalar, hvalid⟩ := exists_of_accepts_inside hrest
        refine ⟨cp, b :: continuations 2 cp, rest, ?_, rfl, hvalid⟩
        have hb : UInt8.ofNat (0xe0 + cp / 4096) = b := by
          apply UInt8.toNat_inj.mp
          rw [toNat_byte] <;> omega
        rw [encode?, if_pos hscalar, if_neg (by omega), if_neg (by omega), if_pos (by omega), hb]
        simp [continuations]
      · split at hfirst
        · cases hfirst
          obtain ⟨cp, rest, rfl, hvalue, hleast, hscalar, hvalid⟩ := exists_of_accepts_inside hrest
          refine ⟨cp, b :: continuations 3 cp, rest, ?_, rfl, hvalid⟩
          have hb : UInt8.ofNat (0xf0 + cp / 262144) = b := by
            apply UInt8.toNat_inj.mp
            rw [toNat_byte] <;> omega
          rw [encode?, if_pos hscalar, if_neg (by omega), if_neg (by omega), if_neg (by omega), hb]
          simp [continuations]
        · cases hfirst

/-- A valid string is spelled by the characters in it. -/
theorem exists_spelled {bs : Bytes} (h : isValid bs) :
    ∃ cps, (∀ cp ∈ cps, IsScalar cp) ∧ spelled cps = bs := by
  cases bs with
  | nil => exact ⟨[], List.forall_mem_nil _, rfl⟩
  | cons b bs =>
      obtain ⟨cp, first, rest, hfirst, heq, hrest⟩ := exists_encode_of_isValid h
      have hlen : rest.length < (b :: bs).length := by
        rw [heq, List.length_append]
        have := List.length_pos_iff.mpr (encode_ne_nil hfirst)
        omega
      obtain ⟨cps, hcps, rfl⟩ := exists_spelled hrest
      refine ⟨cp :: cps, List.forall_mem_cons.mpr ⟨(encode_cases hfirst).1, hcps⟩, ?_⟩
      rw [spelled_cons hfirst, heq]
termination_by bs.length

/-! ### One character and several -/

/-- Behind one character there is room for nothing. -/
theorem single_append {bs more : Bytes} {cp : Nat} (h : single? bs = some cp) (hmore : more ≠ []) :
    single? (bs ++ more) = none := by
  cases bs with
  | nil => cases h
  | cons b rest =>
      have hpos := List.length_pos_iff.mpr hmore
      rw [List.cons_append]
      simp only [single?] at h ⊢
      -- how many bytes follow is settled by the first one
      generalize (if b.toNat < 0x80 then (0, b.toNat)
        else if b.toNat / 32 = 6 then (1, b.toNat % 32)
        else if b.toNat / 16 = 14 then (2, b.toNat % 16)
        else (3, b.toNat % 8) : Nat × Nat) = lead at h ⊢
      split at h
      · next hlen => rw [if_neg (by rw [List.length_append]; omega)]
      · cases h

/-- No spelling of a character is the front of another one. -/
theorem encode_append_inj {cp cp' : Nat} {bs bs' rest rest' : Bytes} (h : encode? cp = some bs)
    (h' : encode? cp' = some bs') (heq : bs ++ rest = bs' ++ rest') : cp = cp' ∧ rest = rest' := by
  have hsame (hbs : bs = bs') : cp = cp' := by
    have hsingle := single_of_encode h
    rw [hbs, single_of_encode h'] at hsingle
    exact (Option.some.inj hsingle).symm
  obtain ⟨more, rfl, rfl⟩ | ⟨more, rfl, rfl⟩ := List.append_eq_append_iff.mp heq
  · by_cases hmore : more = []
    · subst hmore
      exact ⟨hsame (List.append_nil _).symm, rfl⟩
    · cases (single_append (single_of_encode h) hmore).symm.trans (single_of_encode h')
  · by_cases hmore : more = []
    · subst hmore
      exact ⟨hsame (List.append_nil _), rfl⟩
    · cases (single_append (single_of_encode h') hmore).symm.trans (single_of_encode h)

/-- The characters of a string are known from it. -/
theorem spelled_inj {cps cps' : List Nat} (h : ∀ cp ∈ cps, IsScalar cp)
    (h' : ∀ cp ∈ cps', IsScalar cp) (heq : spelled cps = spelled cps') : cps = cps' := by
  induction cps generalizing cps' with
  | nil =>
      cases cps' with
      | nil => rfl
      | cons cp' cps' =>
          rw [List.forall_mem_cons] at h'
          have hcp' := encode_of_isScalar h'.1
          rw [spelled_cons hcp'] at heq
          exact absurd (List.append_eq_nil_iff.mp heq.symm).1 (encode_ne_nil hcp')
  | cons cp cps ih =>
      rw [List.forall_mem_cons] at h
      have hcp := encode_of_isScalar h.1
      rw [spelled_cons hcp] at heq
      cases cps' with
      | nil => exact absurd (List.append_eq_nil_iff.mp heq).1 (encode_ne_nil hcp)
      | cons cp' cps' =>
          rw [List.forall_mem_cons] at h'
          have hcp' := encode_of_isScalar h'.1
          rw [spelled_cons hcp'] at heq
          obtain ⟨rfl, hrest⟩ := encode_append_inj hcp hcp' heq
          rw [ih h.2 h'.2 hrest]

/-- A single character is read exactly from the strings that hold one. -/
theorem single_spelled_iff {cps : List Nat} (h : ∀ cp ∈ cps, IsScalar cp) (cp : Nat) :
    single? (spelled cps) = some cp ↔ cps = [cp] := by
  match cps with
  | [] => simp [single?]
  | [own] =>
      have hown := encode_of_isScalar (h own List.mem_cons_self)
      rw [spelled_cons hown, spelled_nil, List.append_nil, single_of_encode hown]
      simp
  | own :: next :: rest =>
      rw [List.forall_mem_cons, List.forall_mem_cons] at h
      have hown := encode_of_isScalar h.1
      have hnext := encode_of_isScalar h.2.1
      have hmore : spelled (next :: rest) ≠ [] := by
        rw [spelled_cons hnext]
        exact List.append_ne_nil_of_left_ne_nil (encode_ne_nil hnext) _
      rw [spelled_cons hown, single_append (single_of_encode hown) hmore]
      simp

end MsgPack.Utf8
