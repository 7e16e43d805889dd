import MsgPack.Proofs.Writer.Failure

/-!
What lands in a sink that has an end. Runs that are settled beforehand land
whole where there is room for all of them. Where there is not, a front of them
lands: of a block of memory as many runs as fit, of a stream every byte that it
accepts. What every entity writes is settled beforehand, unless it is refused
wherever it goes.
-/

namespace MsgPack

namespace Sink

variable {s : Sink} {bs : Bytes} {n : Nat}

@[simp] theorem written_append (s : Sink) (bs : Bytes) :
    (s.append bs).written = s.written + bs.length := by
  rw [written, ← Array.length_toList, toList_append, List.length_append, Array.length_toList,
    written]

theorem hasRoom_iff : s.HasRoom n ↔ ∀ capacity,
    s.kind = .memory capacity ∨ s.kind = .stream (some capacity) → n ≤ capacity - s.written := by
  obtain ⟨kind, out⟩ := s
  cases kind with
  | buffer => simp [HasRoom, room?]
  | memory capacity => simp [HasRoom, room?, written]
  | stream accepts => cases accepts <;> simp [HasRoom, room?, written]

theorem hasRoom_append (h : s.HasRoom bs.length) :
    (s.append bs).HasRoom n ↔ s.HasRoom (bs.length + n) := by
  rw [hasRoom_iff] at h ⊢
  rw [hasRoom_iff]
  refine forall_congr' fun capacity => imp_congr_right fun hkind => ?_
  have hroom := h capacity hkind
  rw [written_append]
  omega

/-- What has landed of the bytes `bs` where there was no room for them all. -/
structure Landed (s : Sink) (bs landed : Bytes) : Prop where
  front : landed <+: bs
  stream : ∀ accepts, s.kind = .stream (some accepts) → landed = bs.take (accepts - s.written)

/-- What comes after bytes that do not fit makes no difference. -/
theorem Landed.before {landed rest : Bytes} (hnone : ¬ s.HasRoom bs.length)
    (h : s.Landed bs landed) : s.Landed (bs ++ rest) landed where
  front := h.front.trans (List.prefix_append bs rest)
  stream := by
    intro accepts hkind
    have hshort : accepts - s.written ≤ bs.length := by
      refine Nat.le_of_not_le fun hroom => hnone (hasRoom_iff.mpr fun capacity hcapacity => ?_)
      obtain rfl : accepts = capacity := by
        rcases hcapacity with hmemory | hstream
        · cases hkind.symm.trans hmemory
        · cases hkind.symm.trans hstream
          rfl
      exact hroom
    rw [h.stream accepts hkind, List.take_append_of_le_length hshort]

theorem Landed.after {first : Bytes} {landed : Bytes} (hfirst : s.HasRoom first.length)
    (h : (s.append first).Landed bs landed) : s.Landed (first ++ bs) (first ++ landed) where
  front := (List.prefix_append_right_inj first).mpr h.front
  stream := by
    intro accepts hkind
    have hroom : first.length ≤ accepts - s.written := hfirst _ (by rw [room?, hkind]; rfl)
    rw [h.stream accepts hkind, written_append, List.take_append, List.take_of_length_le hroom,
      Nat.sub_sub]

end Sink

namespace Put

variable {α β : Type} {s : Sink} {bs bs' : Bytes}

/-- What comes of handing over bytes: all of them land, or a front of them where
there is no room for all. -/
inductive Lands (s : Sink) (bs : Bytes) (a : α) (r : EStateM.Result Error Sink α) : Prop
  | whole (hroom : s.HasRoom bs.length) (h : r = .ok a (s.append bs))
  | cut (e : Error) (landed : Bytes) (hroom : ¬ s.HasRoom bs.length) (he : e.kind = .bufferFull)
      (hlanded : s.Landed bs landed) (h : r = .error e (s.append landed))

theorem Lands.bind {x : Put α} {f : α → Put β} {a : α} {b : β} (h : Lands s bs a (x s))
    (hf : Lands (s.append bs) bs' b (f a (s.append bs))) :
    Lands s (bs ++ bs') b ((x >>= f) s) := by
  cases h with
  | cut e landed hroom he hlanded h =>
      refine .cut e landed (fun hall => hroom fun room hleft => ?_) he (hlanded.before hroom)
        (bind_of_error h)
      rw [List.length_append] at hall
      exact Nat.le_of_add_right_le (hall room hleft)
  | whole hroom h =>
      rw [bind_of_ok h]
      cases hf with
      | whole hroom' h' =>
          refine .whole ?_ (by rw [h', Sink.append_append])
          rw [List.length_append]
          exact (Sink.hasRoom_append hroom).mp hroom'
      | cut e landed hroom' he hlanded h' =>
          refine .cut e (bs ++ landed) (fun hall => hroom' ?_) he (hlanded.after hroom)
            (by rw [h', Sink.append_append])
          rw [List.length_append] at hall
          exact (Sink.hasRoom_append hroom).mpr hall

theorem run_lands (s : Sink) (bs : Bytes) : Lands s bs () (run bs s) := by
  obtain ⟨kind, out⟩ := s
  cases kind with
  | buffer => exact .whole (by simp [Sink.hasRoom_iff]) rfl
  | memory capacity =>
      by_cases hroom : bs.length ≤ capacity - out.size
      · exact .whole (by simpa [Sink.HasRoom, Sink.room?] using hroom) (if_pos hroom)
      · refine .cut (.bufferFull (.memory bs.length (capacity - out.size))) []
          (by simpa [Sink.HasRoom, Sink.room?] using hroom) rfl
          ⟨List.nil_prefix, fun accepts h => by cases h⟩ ?_
        rw [Sink.append_nil]
        exact if_neg hroom
  | stream accepts =>
      cases accepts with
      | none => exact .whole (by simp [Sink.hasRoom_iff]) rfl
      | some capacity =>
          by_cases hroom : bs.length ≤ capacity - out.size
          · exact .whole (by simpa [Sink.HasRoom, Sink.room?] using hroom) (if_pos hroom)
          · refine .cut (.bufferFull (.stream bs.length)) (bs.take (capacity - out.size))
              (by simpa [Sink.HasRoom, Sink.room?] using hroom) rfl ⟨List.take_prefix _ _, ?_⟩
              (if_neg hroom)
            rintro accepts ⟨⟩
            rfl

/-- What comes of the runs one by one comes of all of them together. -/
theorem runAll_lands (s : Sink) (runs : List Bytes) :
    Lands s runs.flatten runs.flatten.length (runAll runs s) := by
  have hnothing : ∀ s : Sink, ∀ n, Lands s [] n ((pure n : Put Nat) s) := fun s n =>
    .whole (fun room _ => Nat.zero_le room) (by rw [Sink.append_nil]; rfl)
  induction runs generalizing s with
  | nil => exact hnothing s 0
  | cons bs runs ih =>
      rw [runAll_cons, List.flatten_cons, List.length_append]
      have hrest := (ih (s.append bs)).bind (f := fun n => pure (bs.length + n)) (hnothing _ _)
      rw [List.append_nil] at hrest
      exact (run_lands s bs).bind hrest

end Put

/-- The bytes `bs` are what is written whatever the sink. A sink without an end
takes them all, and so does one with room for them; the answer is their number.
One with less room fills up: with a front of them in memory, with as many of
them as it accepts on a stream. -/
structure Fills (write : SinkKind → EStateM.Result Error Sink Nat) (bs : Bytes) : Prop where
  endless : ∀ kind, kind = .buffer ∨ kind = .stream none →
    write kind = .ok bs.length { kind, out := bs.toArray }
  fits : ∀ n, bs.length ≤ n → ∀ kind, kind = .memory n ∨ kind = .stream (some n) →
    write kind = .ok bs.length { kind, out := bs.toArray }
  memory_full : ∀ n, n < bs.length → ∃ e sink, write (.memory n) = .error e sink ∧
    e.kind = .bufferFull ∧ sink.out.toList <+: bs
  stream_full : ∀ n, n < bs.length → ∃ e sink, write (.stream (some n)) = .error e sink ∧
    e.kind = .bufferFull ∧ sink.out.toList = bs.take n

theorem Put.Writes.fills {put : Put Nat} {bs : Bytes} (h : put.Writes bs) :
    Fills (fun kind => put { kind }) bs := by
  obtain ⟨runs, rfl, rfl⟩ := h
  have hwhole : ∀ kind, ({ kind } : Sink).HasRoom runs.flatten.length →
      runAll runs { kind } = .ok runs.flatten.length { kind, out := runs.flatten.toArray } := by
    intro kind hroom
    cases runAll_lands { kind } runs with
    | whole _ h => simp [h, Sink.append]
    | cut _ _ hnone _ _ _ => exact absurd hroom hnone
  have hcut : ∀ kind, ¬ ({ kind } : Sink).HasRoom runs.flatten.length →
      ∃ e sink, runAll runs { kind } = .error e sink ∧ e.kind = .bufferFull ∧
        ({ kind } : Sink).Landed runs.flatten sink.out.toList := by
    intro kind hnone
    cases runAll_lands { kind } runs with
    | whole hroom _ => exact absurd hroom hnone
    | cut e landed _ he hlanded h =>
        refine ⟨e, _, h, he, ?_⟩
        rwa [Sink.toList_append]
  refine ⟨fun kind hkind => hwhole kind ?_, fun n hn kind hkind => hwhole kind ?_, fun n hn => ?_,
    fun n hn => ?_⟩
  · rcases hkind with rfl | rfl <;> simp [Sink.HasRoom, Sink.room?]
  · rcases hkind with rfl | rfl <;> simpa [Sink.HasRoom, Sink.room?] using hn
  · obtain ⟨e, sink, hrun, he, hlanded⟩ :=
      hcut (.memory n) (by simpa [Sink.HasRoom, Sink.room?] using hn)
    exact ⟨e, sink, hrun, he, hlanded.front⟩
  · obtain ⟨e, sink, hrun, he, hlanded⟩ :=
      hcut (.stream (some n)) (by simpa [Sink.HasRoom, Sink.room?] using hn)
    exact ⟨e, sink, hrun, he, hlanded.stream n rfl⟩

/-! ### Steps that do not depend on the sink -/

namespace Put

/-- A step either hands over bytes that are settled beforehand, or succeeds
nowhere. -/
inductive Settled (put : Put Nat) : Prop
  | writes (bs : Bytes) (h : put.Writes bs)
  | never (h : ∀ s n t, put s ≠ .ok n t)

namespace Settled

variable {put put' : Put Nat}

theorem refused (e : Error) : Settled (throw e) := .never fun _ _ _ h => nomatch h

theorem next (h : Settled put) (h' : Settled put') :
    Settled (do let m ← put; let n ← put'; return m + n) := by
  cases h with
  | never h =>
      refine .never fun s n t hrun => ?_
      obtain ⟨m, u, hput, -⟩ := bind_eq_ok_iff.mp hrun
      exact h s m u hput
  | writes bs h =>
      cases h' with
      | writes bs' h' => exact .writes _ (h.next h')
      | never h' =>
          refine .never fun s n t hrun => ?_
          obtain ⟨m, u, -, hrest⟩ := bind_eq_ok_iff.mp hrun
          obtain ⟨k, v, hput, -⟩ := bind_eq_ok_iff.mp hrest
          exact h' u k v hput

/-- A list behind a header, with the count carried along. -/
theorem foldl {α : Type} {f : Nat → α → Put Nat} {item : α → Put Nat}
    (hf : ∀ n x, f n x = do return n + (← item x)) (hitem : ∀ x, Settled (item x))
    (h : Settled put) (xs : List α) : Settled (do let n ← put; xs.foldlM f n) := by
  induction xs generalizing put with
  | nil =>
      simp only [List.foldlM_nil, bind_pure]
      exact h
  | cons x xs ih =>
      have hnext := ih (h.next (hitem x))
      simp only [bind_assoc, pure_bind] at hnext
      simp only [List.foldlM_cons, hf, bind_assoc, pure_bind]
      exact hnext

/-- What succeeds on a buffer is written whatever the sink. -/
theorem fills (h : Settled put) {n : Nat} {sink : Sink}
    (hput : put { kind := .buffer } = .ok n sink) :
    Fills (fun kind => put { kind }) sink.out.toList := by
  cases h with
  | never h => exact absurd hput (h _ n sink)
  | writes bs h =>
      obtain ⟨-, rfl⟩ := h.ok hput
      rw [Sink.toList_append]
      exact h.fills

end Settled

end Put

theorem Event.settled_put (policy : EncodePolicy) (e : Event) : Put.Settled (e.put policy) := by
  by_cases hfits : e.Fits
  · exact .writes _ (writes_put hfits)
  · obtain ⟨err, hput⟩ := put_of_not_fits policy hfits
    exact hput ▸ .refused err

end MsgPack
