import MsgPack.Proofs.Step

/-!
Copying from a stream. A length that comes with the input is not to be trusted,
so the buffer is made larger by one piece at a time, and each piece has to be
filled before there is room for the next.

After any number of turns the copy is known from the size of its buffer alone:
the input stands at the front of it, as far as it goes, and behind that there
are zeros. So a turn is a step from one size to the next, and the last size is
the length that was asked for or the first one beyond the input.
-/

namespace MsgPack

namespace Bytes

variable {bs : Bytes} {k : Nat}

theorem resize_of_le (h : k ≤ bs.length) : bs.resize k = bs.take k := by
  rw [resize, Nat.sub_eq_zero_of_le h, List.replicate_zero, List.append_nil]

/-- A buffer that the front of `bs` fills, made larger and written over from there
on with what comes next. -/
theorem overwrite_resize (h : k ≤ bs.length) (m : Nat) :
    overwrite (resize (bs.resize k) (k + m)) k ((bs.drop k).take m) = bs.resize (k + m) := by
  have hfront : (bs.take k).length = k := List.length_take_of_le h
  have hlarger : resize (bs.resize k) (k + m) = bs.take k ++ List.replicate m 0 := by
    rw [resize_of_le h, resize, hfront, Nat.add_sub_cancel_left,
      List.take_of_length_le (by omega)]
  have hzeros : m - ((bs.drop k).take m).length = k + m - bs.length := by
    rw [List.length_take, List.length_drop]
    omega
  calc overwrite (resize (bs.resize k) (k + m)) k ((bs.drop k).take m)
      = bs.take k ++ ((bs.drop k).take m ++
          List.replicate (m - ((bs.drop k).take m).length) 0) := by
        rw [hlarger, overwrite, List.take_left' hfront, ← List.drop_drop,
          List.drop_left' hfront, List.drop_replicate]
    _ = bs.resize (k + m) := by
        rw [hzeros, ← List.append_assoc, ← List.take_add, resize]

end Bytes

namespace Source.Copy

/-- The turns of a copy of `n` bytes: the copies they leave, one after the other,
and the one that the copy ends with. While a turn is made, the buffer has the
size that it has after it. -/
inductive Turns (n : Nat) : Copy → List Copy → Copy → Prop
  | done {c : Copy} : n ≤ c.filled → Turns n c [] c
  | short {c : Copy} : c.filled < n → (c.turn n).filled ≠ c.filled + c.piece n →
      Turns n c [c.turn n] (c.turn n)
  | on {c d : Copy} {ds : List Copy} : c.filled < n →
      (c.turn n).filled = c.filled + c.piece n → Turns n (c.turn n) ds d →
      Turns n c (c.turn n :: ds) d

variable {n : Nat} {c d d' : Copy} {ds ds' : List Copy}

theorem turns_fill (c : Copy) (n : Nat) : ∃ ds, Turns n c ds (c.fill n) := by
  fun_induction fill c n with
  | case1 c h d hd hlt ih =>
      obtain ⟨ds, hds⟩ := ih
      exact ⟨_, .on h hd hds⟩
  | case2 c h d hd => exact ⟨_, .short h hd⟩
  | case3 c h => exact ⟨_, .done (Nat.le_of_not_lt h)⟩

theorem Turns.unique (h : Turns n c ds d) (h' : Turns n c ds' d') : ds' = ds ∧ d' = d := by
  induction h generalizing ds' with
  | done hdone => cases h' with
      | done => exact ⟨rfl, rfl⟩
      | short hlt | on hlt => exact absurd hdone (Nat.not_le_of_lt hlt)
  | short hlt hshort => cases h' with
      | done hdone => exact absurd hdone (Nat.not_le_of_lt hlt)
      | short => exact ⟨rfl, rfl⟩
      | on _ hwhole => exact absurd hwhole hshort
  | on hlt hwhole _ ih => cases h' with
      | done hdone => exact absurd hdone (Nat.not_le_of_lt hlt)
      | short _ hshort => exact absurd hwhole hshort
      | on _ _ hrest =>
          obtain ⟨rfl, rfl⟩ := ih hrest
          exact ⟨rfl, rfl⟩

/-! ### Copies by the size of the buffer -/

/-- The copy of an input that has come to a buffer of `size` bytes. -/
def ofSize (input : Bytes) (size : Nat) : Copy :=
  { buffer := input.resize size, filled := size.min input.length, left := input.drop size }

/-- The size of the buffer after the next turn, from a full one of `size` bytes. -/
def nextSize (n size : Nat) : Nat := size + (n - size).min pieceSize

variable {input : Bytes} {size : Nat}

theorem ofSize_zero (input : Bytes) : ofSize input 0 = { left := input } := by
  simp [ofSize, Bytes.resize_of_le]

theorem length_buffer_ofSize (input : Bytes) (size : Nat) :
    (ofSize input size).buffer.length = size :=
  Bytes.length_resize ..

theorem filled_ofSize (h : size ≤ input.length) : (ofSize input size).filled = size :=
  Nat.min_eq_left h

theorem ofSize_of_le (h : size ≤ input.length) :
    ofSize input size = { buffer := input.take size, filled := size, left := input.drop size } := by
  show Copy.mk _ (min size input.length) _ = _
  rw [Bytes.resize_of_le h, Nat.min_eq_left h]

theorem nextSize_spec (h : size < n) :
    size < nextSize n size ∧ nextSize n size ≤ n ∧
      (nextSize n size = size + pieceSize ∨ nextSize n size = n ∧ n < size + pieceSize) := by
  have hpos : 0 < pieceSize := by decide
  simp only [nextSize, Nat.min_def]
  split <;> omega

theorem piece_ofSize (h : size ≤ input.length) :
    (ofSize input size).filled + (ofSize input size).piece n = nextSize n size := by
  rw [piece, filled_ofSize h, nextSize]

theorem turn_ofSize (h : size ≤ input.length) :
    (ofSize input size).turn n = ofSize input (nextSize n size) := by
  simp only [turn, piece, filled_ofSize h, nextSize]
  generalize (n - size).min pieceSize = m
  simp only [ofSize, Copy.mk.injEq]
  refine ⟨Bytes.overwrite_resize h m, ?_, List.drop_drop⟩
  show _ = min _ _
  rw [List.length_take, List.length_drop]
  omega

/-- A piece comes whole as long as the buffer stays within the input. -/
theorem whole_ofSize_iff (h : size ≤ input.length) :
    ((ofSize input size).turn n).filled =
        (ofSize input size).filled + (ofSize input size).piece n ↔
      nextSize n size ≤ input.length := by
  rw [turn_ofSize h, piece_ofSize h]
  show min _ _ = _ ↔ _
  omega

/-- What the turns of a copy of `n` bytes come to, from a full buffer of `size`
bytes on. They end with a buffer of `n` bytes or with one that reaches beyond
the input, and none of them is made in vain. -/
structure Growth (input : Bytes) (n size : Nat) (ds : List Copy) (d : Copy) : Prop where
  stages : ∀ e ∈ ds, ∃ k, k ≤ n ∧ k ≤ input.length + pieceSize ∧ e = ofSize input k
  ending : ∃ k, k ≤ n ∧ (k = n ∨ input.length < k) ∧ d = ofSize input k
  enough : min n (input.length + 1) ≤ size + ds.length * pieceSize
  needed : size + ds.length * pieceSize < min n (input.length + 1) + pieceSize

-- The buffer is full at the head of every turn, and so the size is within the
-- input there; only a turn that ends the loop goes beyond.
theorem Turns.growth (h : Turns n c ds d) (hc : c = ofSize input size) (hn : size ≤ n)
    (hsize : size ≤ input.length) : Growth input n size ds d := by
  induction h generalizing size with
  | done hdone =>
      subst hc
      rw [filled_ofSize hsize] at hdone
      obtain rfl := Nat.le_antisymm hn hdone
      have hpos : 0 < pieceSize := by decide
      exact
        { stages := List.forall_mem_nil _
          ending := ⟨size, hn, .inl rfl, rfl⟩
          enough := by rw [List.length_nil]; omega
          needed := by rw [List.length_nil]; omega }
  | short hlt hshort =>
      subst hc
      rw [filled_ofSize hsize] at hlt
      have hbeyond : input.length < nextSize n size :=
        Nat.lt_of_not_le (mt (whole_ofSize_iff hsize).mpr hshort)
      obtain ⟨hgrows, hle, hpiece⟩ := nextSize_spec hlt
      rw [turn_ofSize hsize]
      exact
        { stages := List.forall_mem_singleton.mpr ⟨_, hle, by omega, rfl⟩
          ending := ⟨_, hle, .inr hbeyond, rfl⟩
          enough := by rw [List.length_singleton]; omega
          needed := by rw [List.length_singleton]; omega }
  | on hlt hwhole hrest ih =>
      subst hc
      rw [filled_ofSize hsize] at hlt
      have hwithin : nextSize n size ≤ input.length := (whole_ofSize_iff hsize).mp hwhole
      obtain ⟨hgrows, hle, hpiece⟩ := nextSize_spec hlt
      obtain ⟨hstages, hending, henough, hneeded⟩ := ih (turn_ofSize hsize) hle hwithin
      rw [turn_ofSize hsize]
      simp only [pieceSize] at hpiece henough hneeded
      exact
        { stages := List.forall_mem_cons.mpr
            ⟨⟨_, hle, by simp only [pieceSize]; omega, rfl⟩, hstages⟩
          ending := hending
          enough := by rw [List.length_cons, pieceSize]; omega
          needed := by rw [List.length_cons, pieceSize]; omega }

theorem growth_of_turns (h : Turns n { left := input } ds d) : Growth input n 0 ds d :=
  h.growth (ofSize_zero input).symm (Nat.zero_le n) (Nat.zero_le _)

theorem fill_of_le (h : n ≤ input.length) :
    fill { left := input } n =
      { buffer := input.take n, filled := n, left := input.drop n } := by
  obtain ⟨ds, hds⟩ := turns_fill { left := input } n
  obtain ⟨k, hk, rfl | hbeyond, hfill⟩ := (growth_of_turns hds).ending
  · rw [hfill, ofSize_of_le h]
  · omega

/-- A stream that has too little is copied to its end. -/
theorem fill_of_lt (h : input.length < n) :
    (fill { left := input } n).filled = input.length ∧ (fill { left := input } n).left = [] := by
  obtain ⟨ds, hds⟩ := turns_fill { left := input } n
  obtain ⟨k, -, hk, hfill⟩ := (growth_of_turns hds).ending
  have hbeyond : input.length < k := by omega
  rw [hfill]
  exact ⟨Nat.min_eq_right (Nat.le_of_lt hbeyond), List.drop_of_length_le (Nat.le_of_lt hbeyond)⟩

end Source.Copy

namespace Get

open Source (pieceSize Copy)

/-- What a stream has of the bytes that are asked for is taken from it, also if
that is not enough. -/
theorem read_of_stream {s : Source} (hs : s.kind = .stream) (n : Nat) :
    read n s =
      if n ≤ s.left.length then .ok (.copied (s.left.take n)) (s.advance n)
      else .error (.endOfData (.stream n s.left.length)) (s.advance s.left.length) := by
  by_cases hn : n ≤ s.left.length
  · simp only [read, hs, Copy.fill_of_le hn, Source.advance]
    rw [if_pos trivial, if_pos hn]
  · obtain ⟨hfilled, hleft⟩ := Copy.fill_of_lt (Nat.lt_of_not_le hn)
    have hne : s.left.length ≠ n := by omega
    simp only [read, hs, hfilled, hleft, Source.advance, List.drop_length]
    rw [if_neg hne, if_neg hn]

/-- Reading from a stream is exact. If it has the `n` bytes that are asked for,
they are yielded in their order, and no others are taken from it; if it has
fewer, that is an error. There is one course only that the copy takes, with a
turn for every piece of what is asked for or, if that is less, of what there is
and one byte more. Whatever length is asked for, the buffer never grows beyond
it, nor by more than one piece beyond what there is. -/
theorem stream_read_exact (s : Source) (hs : s.kind = .stream) (n : Nat) :
    read n s =
        (if n ≤ s.left.length then .ok (.copied (s.left.take n)) (s.advance n)
        else .error (.endOfData (.stream n s.left.length)) (s.advance s.left.length)) ∧
      ∃ copies : List Copy,
        (∀ ds d, Copy.Turns n { left := s.left } ds d ↔
          ds = copies ∧ d = Copy.fill { left := s.left } n) ∧
        copies.length = (min n (s.left.length + 1) + (pieceSize - 1)) / pieceSize ∧
        ∀ c ∈ copies, c.buffer.length ≤ min n (s.left.length + pieceSize) := by
  obtain ⟨copies, hturns⟩ := Copy.turns_fill { left := s.left } n
  obtain ⟨hstages, -, henough, hneeded⟩ := Copy.growth_of_turns hturns
  refine ⟨read_of_stream hs n, copies, fun ds d => ⟨hturns.unique, ?_⟩, ?_, ?_⟩
  · rintro ⟨rfl, rfl⟩
    exact hturns
  · simp only [pieceSize] at *
    omega
  · intro c hc
    obtain ⟨k, hkn, hkleft, rfl⟩ := hstages c hc
    rw [Copy.length_buffer_ofSize]
    exact Nat.le_min.mpr ⟨hkn, hkleft⟩

/-- Two turns for a read that goes one byte beyond a piece, and no more for one
that asks for four gigabytes. -/
theorem stream_read_exact_second_piece :
    let piece : Bytes := List.replicate 65536 0xab
    let s : Source := { kind := .stream, left := piece ++ [1, 2, 3] }
    s.kind = .stream ∧
      read 65537 s = .ok (.copied (piece ++ [1])) { s with left := [2, 3], position := 65537 } ∧
      read 4294967295 s = .error (.endOfData (.stream 4294967295 65539))
        { s with left := [], position := 65539 } ∧
      (∃ copies d, Copy.Turns 65537 { left := s.left } copies d ∧ copies.length = 2) ∧
      ∃ copies d, Copy.Turns 4294967295 { left := s.left } copies d ∧ copies.length = 2 ∧
        ∀ c ∈ copies, c.buffer.length ≤ 131075 := by
  intro piece s
  have hpiece : piece.length = 65536 := List.length_replicate
  clear_value piece
  have hleft : s.left.length = 65539 := by simp [s, hpiece]
  have htake : s.left.take 65537 = piece ++ [1] := by
    simp [s, List.take_append, List.take_of_length_le, hpiece]
  have hdrop : s.left.drop 65537 = [2, 3] := by simp [s, List.drop_append, hpiece]
  obtain ⟨hread, copies, hcourse, hturns, -⟩ := stream_read_exact s rfl 65537
  obtain ⟨hhuge, copies', hcourse', hturns', hroom⟩ := stream_read_exact s rfl 4294967295
  rw [hleft] at hread hturns hhuge hturns' hroom
  rw [if_pos (by decide), htake, Source.advance, hdrop] at hread
  rw [if_neg (by decide), Source.advance, List.drop_of_length_le (Nat.le_of_eq hleft)] at hhuge
  exact ⟨rfl, hread, hhuge, ⟨copies, _, (hcourse _ _).mpr ⟨rfl, rfl⟩, hturns⟩,
    copies', _, (hcourse' _ _).mpr ⟨rfl, rfl⟩, hturns', hroom⟩

end Get

end MsgPack
