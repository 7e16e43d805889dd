import MsgPack.Proofs.Copying
import MsgPack.Proofs.Language
import MsgPack.Value.Codec

/-!
What readers accept. A language pairs strings of bytes with what they stand
for, and a reader accepts a language if, on memory and on streams alike, its
successes are exactly the readings of a string of the language at the front of
the input, with just that string consumed. Both directions travel together, so that acceptance
composes as readers do: it is carried through `bind`, through a look at the
first byte, and through repetition.
-/

namespace MsgPack

namespace Source

variable {s : Source} {xs ys : Bytes}

@[simp] theorem kind_advance (s : Source) (n : Nat) : (s.advance n).kind = s.kind := rfl

@[simp] theorem position_advance (s : Source) (n : Nat) :
    (s.advance n).position = s.position + n := rfl

@[simp] theorem left_advance (s : Source) (n : Nat) : (s.advance n).left = s.left.drop n := rfl

@[simp] theorem advance_zero (s : Source) : s.advance 0 = s := rfl

@[simp] theorem advance_advance (s : Source) (m n : Nat) :
    (s.advance m).advance n = s.advance (m + n) := by
  simp [advance, List.drop_drop, Nat.add_assoc]

theorem left_advance_length (h : s.left = xs ++ ys) : (s.advance xs.length).left = ys := by
  simp [h]

end Source

namespace Get

variable {α β : Type}

/-- The successes of `g` are the readings of the strings of `L`. -/
structure Accepts (g : Get α) (L : Language α) : Prop where
  complete : ∀ {s : Source} {bs rest : Bytes} {a : α}, s.left = bs ++ rest →
    L bs a → g s = .ok a (s.advance bs.length)
  sound : ∀ {s t : Source} {a : α}, g s = .ok a t →
    ∃ bs rest, s.left = bs ++ rest ∧ L bs a ∧ t = s.advance bs.length

namespace Accepts

variable {g : Get α} {L L' : Language α} {f : α → Get β} {M : α → Language β}

theorem pure (a : α) : Accepts (pure a) (.unit a) where
  complete := by
    rintro s bs rest b - ⟨rfl, rfl⟩
    rfl
  sound := by
    intro s t b h
    obtain ⟨rfl, rfl⟩ := EStateM.Result.ok.inj h
    exact ⟨[], s.left, rfl, ⟨rfl, rfl⟩, rfl⟩

theorem congr (h : Accepts g L) (hL : ∀ bs a, L bs a ↔ L' bs a) : Accepts g L' where
  complete hl ha := h.complete hl ((hL _ _).mpr ha)
  sound := by
    intro s t a hg
    obtain ⟨bs, rest, hl, ha, ht⟩ := h.sound hg
    exact ⟨bs, rest, hl, (hL _ _).mp ha, ht⟩

theorem bind (hg : Accepts g L) (hf : ∀ a, Accepts (f a) (M a)) :
    Accepts (g >>= f) (L.seq M) where
  complete := by
    rintro s bs rest b hl ⟨xs, ys, a, rfl, hx, hy⟩
    rw [List.append_assoc] at hl
    rw [bind_of_ok (hg.complete hl hx),
      (hf a).complete (Source.left_advance_length hl) hy, Source.advance_advance,
      List.length_append]
  sound := by
    intro s t b h
    obtain ⟨a, u, hgu, hfu⟩ := bind_eq_ok_iff.mp h
    obtain ⟨xs, rest, hl, hx, rfl⟩ := hg.sound hgu
    obtain ⟨ys, rest', hl', hy, rfl⟩ := (hf a).sound hfu
    rw [Source.left_advance_length hl] at hl'
    refine ⟨xs ++ ys, rest', ?_, ⟨xs, ys, a, rfl, hx, hy⟩, ?_⟩
    · rw [hl, hl', List.append_assoc]
    · rw [Source.advance_advance, List.length_append]

theorem map (hg : Accepts g L) (k : α → β) :
    Accepts (do return k (← g)) (L.image k) :=
  Language.seq_image k L ▸ hg.bind fun a => .pure (k a)

theorem collect (hg : Accepts g L) (n : Nat) : Accepts (collect g n) (L.repeated n) := by
  induction n with
  | zero => exact .pure []
  | succ n ih =>
      rw [collect_succ]
      exact hg.bind fun a => ih.map (a :: ·)

end Accepts

/-- On a source that goes on with the byte `b`, the successes of `g` are the
readings of `b` and a string of `K`. -/
structure AcceptsAt (b : UInt8) (g : Get α) (K : Language α) : Prop where
  complete : ∀ {s : Source} {bs rest : Bytes} {a : α}, s.left = b :: (bs ++ rest) →
    K bs a → g s = .ok a (s.advance (bs.length + 1))
  sound : ∀ {s t : Source} {rest : Bytes} {a : α}, g s = .ok a t → s.left = b :: rest →
    ∃ bs rest', rest = bs ++ rest' ∧ K bs a ∧ t = s.advance (bs.length + 1)

theorem marker_cons {s : Source} {b : UInt8} {rest : Bytes} (h : s.left = b :: rest) :
    marker s = .ok (.ofByte b) s := by
  simp [marker, bind_apply, peek, h]

theorem byte_cons {s : Source} {b : UInt8} {rest : Bytes} (h : s.left = b :: rest) :
    byte s = .ok b (s.advance 1) := by
  simp [byte, bind_apply, map_apply, peek, h]

theorem after_cons {s : Source} {b : UInt8} {rest : Bytes} (h : s.left = b :: rest)
    (g : Get α) : after g s = g (s.advance 1) := by
  simp [after, bind_apply, discard_apply, byte_cons h]

namespace AcceptsAt

variable {b : UInt8} {g : Get α} {K K' : Language α}

theorem congr (h : AcceptsAt b g K) (hK : ∀ bs a, K bs a ↔ K' bs a) : AcceptsAt b g K' where
  complete hl ha := h.complete hl ((hK _ _).mpr ha)
  sound := by
    intro s t rest a hg hl
    obtain ⟨bs, rest', hr, ha, ht⟩ := h.sound hg hl
    exact ⟨bs, rest', hr, (hK _ _).mp ha, ht⟩

theorem after (h : Accepts g K) : AcceptsAt b (after g) K where
  complete := by
    intro s bs rest a hl ha
    have hl' : (s.advance 1).left = bs ++ rest := by simp [hl]
    rw [after_cons hl, h.complete hl' ha, Source.advance_advance, Nat.add_comm]
  sound := by
    intro s t rest a hg hl
    rw [after_cons hl] at hg
    obtain ⟨bs, rest', hr, ha, rfl⟩ := h.sound hg
    refine ⟨bs, rest', ?_, ha, ?_⟩
    · simpa [hl] using hr
    · rw [Source.advance_advance, Nat.add_comm]

theorem throw (e : Error) : AcceptsAt b (throw e : Get α) fun _ _ => False where
  complete := by intro s bs rest a _ h; exact h.elim
  sound := by intro s t rest a h; simp at h

theorem map {β : Type} (h : AcceptsAt b g K) (k : α → β) :
    AcceptsAt b (do return k (← g)) (K.image k) where
  complete := by
    rintro s bs rest c hl ⟨a, ha, rfl⟩
    rw [bind_of_ok (h.complete hl ha), pure_apply]
  sound := by
    intro s t rest c hg hl
    obtain ⟨a, u, hgu, hau⟩ := bind_eq_ok_iff.mp hg
    obtain ⟨rfl, rfl⟩ := EStateM.Result.ok.inj hau
    obtain ⟨bs, rest', hr, ha, ht⟩ := h.sound hgu hl
    exact ⟨bs, rest', hr, ⟨a, ha, rfl⟩, ht⟩

/-- A reader that accepts no empty string may be told the first byte. -/
theorem ofAccepts {L : Language α} (h : Accepts g L) (hne : ∀ a, ¬ L [] a) :
    AcceptsAt b g fun bs a => L (b :: bs) a where
  complete := by
    intro s bs rest a hl ha
    exact h.complete (by simpa using hl) ha
  sound := by
    intro s t rest a hg hl
    obtain ⟨bs, rest', hr, ha, ht⟩ := h.sound hg
    cases bs with
    | nil => exact absurd ha (hne a)
    | cons c bs =>
        rw [hl, List.cons_append] at hr
        obtain ⟨rfl, htail⟩ := List.cons.inj hr
        exact ⟨bs, rest', htail, ha, ht⟩

/-- The first byte, once looked at, selects how to go on. -/
theorem marker_bind {f : Marker → Get α} {K : UInt8 → Language α}
    (h : ∀ b, AcceptsAt b (f (.ofByte b)) (K b)) : Accepts (marker >>= f) (.byFirst K) where
  complete := by
    rintro s bs rest a hl ⟨b, tail, rfl, ha⟩
    rw [List.cons_append] at hl
    rw [bind_of_ok (marker_cons hl)]
    exact (h b).complete hl ha
  sound := by
    intro s t a hg
    obtain ⟨m, u, hm, hf⟩ := bind_eq_ok_iff.mp hg
    -- a look at the end of the input fails, and so does every reader that begins with one
    cases hl : s.left with
    | nil => cases hk : s.kind <;> simp [marker, bind_apply, peek, hl, hk] at hm
    | cons b rest =>
        rw [marker_cons hl] at hm
        obtain ⟨rfl, rfl⟩ := EStateM.Result.ok.inj hm
        obtain ⟨bs, rest', hr, ha, ht⟩ := (h b).sound hf hl
        exact ⟨b :: bs, rest', by rw [hr, List.cons_append], ⟨b, bs, rfl, ha⟩, ht⟩

end AcceptsAt

/-! ### Payloads

A payload on memory is a view into the input and so depends on what follows it;
its bytes do not. A stream is copied from in pieces, which do not show in what
is copied. -/

/-- The successes of `g` yield the strings that `L` tells, and memory lends
them. -/
structure Lends (g : Get Payload) (L : Language Bytes) : Prop where
  complete : ∀ {s : Source} {bs rest c : Bytes}, s.left = bs ++ rest → L bs c →
    ∃ p, (s.kind = .memory → p.borrowed = true) ∧ p.bytes = c ∧
      g s = .ok p (s.advance bs.length)
  sound : ∀ {s t : Source} {p : Payload}, g s = .ok p t →
    ∃ bs rest, s.left = bs ++ rest ∧ L bs p.bytes ∧ t = s.advance bs.length

theorem bytes_copied (bs : Bytes) : (Payload.copied bs).bytes = bs :=
  ByteView.toBytes_ofBytes bs

theorem read_memory {s : Source} (hk : s.kind = .memory) {n : Nat}
    (h : (s.left.take n).length = n) :
    ∃ p, p.borrowed = true ∧ p.bytes = s.left.take n ∧ read n s = .ok p (s.advance n) := by
  refine ⟨⟨true, s.left, n, by rw [List.length_take] at h; omega⟩, rfl, rfl, ?_⟩
  simp only [read, hk]
  rw [dif_pos h]

theorem read_stream {s : Source} (hk : s.kind = .stream) {n : Nat}
    (h : (s.left.take n).length = n) :
    read n s = .ok (.copied (s.left.take n)) (s.advance n) := by
  have hn : n ≤ s.left.length := h ▸ List.length_take_le' ..
  rw [read_of_stream hk, if_pos hn]

theorem read_short {s : Source} {n : Nat} (h : (s.left.take n).length ≠ n) :
    ∃ e t, read n s = .error (.endOfData e) t := by
  cases hk : s.kind with
  | memory =>
      refine ⟨.memory n s.left.length, s, ?_⟩
      simp only [read, hk]
      rw [dif_neg h]
  | stream =>
      have hn : ¬n ≤ s.left.length := fun hn => h (List.length_take_of_le hn)
      exact ⟨_, _, (read_of_stream hk n).trans (if_neg hn)⟩

theorem lends_read (n : Nat) : Lends (read n) (.ofLength n) where
  complete := by
    rintro s bs rest c hl ⟨rfl, rfl⟩
    have htake : s.left.take c.length = c := by simp [hl]
    have hlen : (s.left.take c.length).length = c.length := by rw [htake]
    cases hk : s.kind with
    | memory =>
        obtain ⟨p, hp, hbytes, hread⟩ := read_memory hk hlen
        exact ⟨p, fun _ => hp, hbytes.trans htake, hread⟩
    | stream =>
        exact ⟨_, fun h => SourceKind.noConfusion h, (bytes_copied _).trans htake,
          read_stream hk hlen⟩
  sound := by
    intro s t p h
    by_cases hn : (s.left.take n).length = n
    · refine ⟨s.left.take n, s.left.drop n, (List.take_append_drop n s.left).symm, ?_⟩
      rw [hn]
      cases hk : s.kind with
      | memory =>
          obtain ⟨q, -, hbytes, hread⟩ := read_memory hk hn
          obtain ⟨rfl, rfl⟩ := EStateM.Result.ok.inj (hread.symm.trans h)
          exact ⟨⟨hn, hbytes⟩, rfl⟩
      | stream =>
          obtain ⟨rfl, rfl⟩ := EStateM.Result.ok.inj ((read_stream hk hn).symm.trans h)
          exact ⟨⟨hn, bytes_copied _⟩, rfl⟩
    · obtain ⟨e, u, hread⟩ := read_short hn
      cases hread.symm.trans h

theorem Lends.bind {g : Get Payload} {L : Language Bytes} {f : Payload → Get α}
    {M : Bytes → Language α} (hg : Lends g L) (hf : ∀ p, Accepts (f p) (M p.bytes)) :
    Accepts (g >>= f) (L.seq M) where
  complete := by
    rintro s bs rest a hl ⟨xs, ys, c, rfl, hx, hy⟩
    rw [List.append_assoc] at hl
    obtain ⟨p, -, rfl, hgs⟩ := hg.complete hl hx
    rw [bind_of_ok hgs, (hf p).complete (Source.left_advance_length hl) hy,
      Source.advance_advance, List.length_append]
  sound := by
    intro s t a h
    obtain ⟨p, u, hgu, hfu⟩ := bind_eq_ok_iff.mp h
    obtain ⟨xs, rest, hl, hx, rfl⟩ := hg.sound hgu
    obtain ⟨ys, rest', hl', hy, rfl⟩ := (hf p).sound hfu
    rw [Source.left_advance_length hl] at hl'
    refine ⟨xs ++ ys, rest', ?_, ⟨xs, ys, p.bytes, rfl, hx, hy⟩, ?_⟩
    · rw [hl, hl', List.append_assoc]
    · rw [Source.advance_advance, List.length_append]

theorem Accepts.lends {g : Get α} {f : α → Get Payload} {L : Language α}
    {M : α → Language Bytes} (hg : Accepts g L) (hf : ∀ a, Lends (f a) (M a)) :
    Lends (g >>= f) (L.seq M) where
  complete := by
    rintro s bs rest c hl ⟨xs, ys, a, rfl, hx, hy⟩
    rw [List.append_assoc] at hl
    obtain ⟨p, hp, hc, hfs⟩ := (hf a).complete (Source.left_advance_length hl) hy
    refine ⟨p, hp, hc, ?_⟩
    rw [bind_of_ok (hg.complete hl hx), hfs, Source.advance_advance, List.length_append]
  sound := by
    intro s t p h
    obtain ⟨a, u, hgu, hfu⟩ := bind_eq_ok_iff.mp h
    obtain ⟨xs, rest, hl, hx, rfl⟩ := hg.sound hgu
    obtain ⟨ys, rest', hl', hy, rfl⟩ := (hf a).sound hfu
    rw [Source.left_advance_length hl] at hl'
    refine ⟨xs ++ ys, rest', ?_, ⟨xs, ys, a, rfl, hx, hy⟩, ?_⟩
    · rw [hl, hl', List.append_assoc]
    · rw [Source.advance_advance, List.length_append]

theorem accepts_number (width : Nat) :
    Accepts (number width) ((Language.ofLength width).image Bytes.toNat) := by
  rw [← Language.seq_image]
  exact (lends_read width).bind fun p => .pure (Bytes.toNat p.bytes)

end Get

end MsgPack
