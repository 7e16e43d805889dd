import MsgPack.Proofs.Writer.Output

/-!
What a serializer is left with when a step of it fails. An element is accounted
for before it is encoded, so that the scopes keep the count of an element that
did not get out; only failures that come before the accounting, or outside all
scopes before the first byte, leave everything as it was.
-/

namespace MsgPack

open Put (maxLength runAll)

/-! ### Sinks that take a run whole or not at all -/

namespace Sink

/-- Buffers and blocks of memory. -/
def IsWhole (s : Sink) : Prop := s.kind = .buffer ∨ ∃ capacity, s.kind = .memory capacity

/-- Whether there is room for `n` more bytes. -/
def HasRoom (s : Sink) (n : Nat) : Prop := ∀ room ∈ s.room?, n ≤ room

theorem ne_append {s : Sink} {bs : Bytes} (h : bs ≠ []) : s ≠ s.append bs := by
  intro heq
  have hout := congrArg (fun s : Sink => s.out.toList) heq
  rw [toList_append] at hout
  exact h (List.self_eq_append_right.mp hout)

end Sink

namespace Put

theorem run_cases {s : Sink} (hs : s.IsWhole) (bs : Bytes) :
    s.HasRoom bs.length ∧ run bs s = .ok () (s.append bs) ∨
      ¬ s.HasRoom bs.length ∧ ∃ err, run bs s = .error err s := by
  obtain ⟨kind, out⟩ := s
  rcases hs with rfl | ⟨capacity, rfl⟩
  · exact .inl ⟨by simp [Sink.HasRoom, Sink.room?], rfl⟩
  · by_cases hroom : bs.length ≤ capacity - out.size
    · exact .inl ⟨by simpa [Sink.HasRoom, Sink.room?] using hroom, if_pos hroom⟩
    · exact .inr ⟨by simpa [Sink.HasRoom, Sink.room?] using hroom, _, if_neg hroom⟩

theorem runAll_cons (bs : Bytes) (runs : List Bytes) :
    runAll (bs :: runs) = do
      run bs
      return bs.length + (← runAll runs) := by
  simp [runAll]

/-- Whatever comes of a step, the sink stays of its kind. -/
def KeepsKind (put : Put Nat) : Prop :=
  ∀ s t, ((∃ n, put s = .ok n t) ∨ ∃ err, put s = .error err t) → t.kind = s.kind

theorem keepsKind_throw (err : Error) : KeepsKind (throw err) := by
  rintro s t (⟨n, h⟩ | ⟨_, h⟩) <;> cases h
  rfl

theorem run_kind {bs : Bytes} {s t : Sink}
    (h : run bs s = .ok () t ∨ ∃ err, run bs s = .error err t) : t.kind = s.kind := by
  obtain ⟨kind, out⟩ := s
  rcases h with h | ⟨err, h⟩
  · cases kind with
    | buffer =>
        cases h
        rfl
    | memory capacity =>
        simp only [run] at h
        split at h <;> cases h
        rfl
    | stream accepts =>
        cases accepts with
        | none =>
            cases h
            rfl
        | some n =>
            simp only [run] at h
            split at h <;> cases h
            rfl
  · cases kind with
    | buffer => cases h
    | memory capacity =>
        simp only [run] at h
        split at h <;> cases h
        rfl
    | stream accepts =>
        cases accepts with
        | none => cases h
        | some n =>
            simp only [run] at h
            split at h <;> cases h
            rfl

theorem keepsKind_runAll (runs : List Bytes) : KeepsKind (runAll runs) := by
  induction runs with
  | nil =>
      rintro s t (⟨n, h⟩ | ⟨_, h⟩) <;> cases h
      rfl
  | cons bs runs ih =>
      intro s t h
      rw [runAll_cons] at h
      cases hrun : run bs s with
      | error err u =>
          rw [bind_of_error hrun] at h
          rcases h with ⟨n, h⟩ | ⟨_, h⟩ <;> cases h
          exact run_kind (.inr ⟨err, hrun⟩)
      | ok _ u =>
          rw [bind_of_ok hrun] at h
          have hu : u.kind = s.kind := run_kind (.inl hrun)
          rw [← hu]
          apply ih u t
          rcases h with ⟨n, h⟩ | ⟨err, h⟩
          · obtain ⟨m, v, hrest, h⟩ := bind_eq_ok_iff.mp h
            cases h
            exact .inl ⟨m, hrest⟩
          · rcases bind_eq_error_iff.mp h with hrest | ⟨m, v, -, h⟩
            · exact .inr ⟨err, hrest⟩
            · cases h

/-- A failure of a list of runs comes before the first of them has landed, or
after. -/
theorem runAll_error {bs : Bytes} {runs : List Bytes} {s t : Sink} {err : Error}
    (hs : s.IsWhole) (h : runAll (bs :: runs) s = .error err t) :
    ¬ s.HasRoom bs.length ∧ t = s ∨
      s.HasRoom bs.length ∧ runAll runs (s.append bs) = .error err t := by
  rw [runAll_cons] at h
  rcases run_cases hs bs with ⟨hroom, hrun⟩ | ⟨hroom, e, hrun⟩
  · refine .inr ⟨hroom, ?_⟩
    rw [bind_of_ok hrun] at h
    rcases bind_eq_error_iff.mp h with h | ⟨n, u, -, h⟩
    · exact h
    · cases h
  · rw [bind_of_error hrun] at h
    cases h
    exact .inl ⟨hroom, rfl⟩

end Put

/-! ### Events that do not get out -/

namespace Event

variable {policy : EncodePolicy} {e : Event}

/-- If an event does not get out into a sink, then either nothing of it did, for
which its first run has to be too long, or something. -/
theorem put_error {s t : Sink} {err : Error} (hs : s.IsWhole)
    (h : e.put policy s = .error err t) :
    t = s ↔ ¬ e.Fits ∨ ¬ s.HasRoom (e.head policy).length := by
  by_cases hfits : e.Fits
  · rcases put_runs policy hfits with hput | hput | ⟨hne, content, hput⟩
    · rw [hput] at h
      cases h
    · rw [hput] at h
      rcases Put.runAll_error hs h with ⟨hroom, ht⟩ | ⟨hroom, h⟩
      · simp [ht, hroom]
      · cases h
    · rw [hput] at h
      rcases Put.runAll_error hs h with ⟨hroom, ht⟩ | ⟨hroom, h⟩
      · simp [ht, hroom]
      · rcases Put.runAll_error (s := s.append (e.head policy)) hs h with ⟨-, ht⟩ | ⟨-, h⟩
        · simp [ht, hroom, hfits, (Sink.ne_append hne).symm]
        · cases h
  · obtain ⟨e, hput⟩ := put_of_not_fits policy hfits
    rw [hput] at h
    cases h
    simp [hfits]

theorem keepsKind_put (policy : EncodePolicy) (e : Event) : Put.KeepsKind (e.put policy) := by
  by_cases hfits : e.Fits
  · obtain ⟨runs, hput⟩ := put_of_fits policy hfits
    rw [hput]
    exact Put.keepsKind_runAll runs
  · obtain ⟨err, hput⟩ := put_of_not_fits policy hfits
    rw [hput]
    exact Put.keepsKind_throw err

end Event

/-! ### What holds of every open scope -/

/-- A scope holds no more than it announced, and a key that waits for its value,
or an announced key, has room in its map. -/
structure Scope.Sound (f : Scope) : Prop where
  within : f.written ≤ f.declared
  due : f.keyAnnounced = true ∨ f.keyWritten = true → f.kind = .map ∧ f.written < f.declared

namespace Scopes

/-- All scopes are sound. -/
def Sound (scopes : Scopes) : Prop := ∀ f ∈ scopes, f.Sound

variable {e : Event} {f g : Scope} {scopes scopes' outer : Scopes} {err : Error}

theorem Sound.cons (hf : f.Sound) (h : Sound outer) : Sound (f :: outer) :=
  List.forall_mem_cons.mpr ⟨hf, h⟩

theorem sound_takesElement (hf : f.Sound) (h : TakesElement f g) : g.Sound := by
  cases h with
  | array hkind hroom =>
      refine ⟨hroom, fun hdue => ?_⟩
      exact nomatch hkind.symm.trans (hf.due hdue).1
  | key hkind hkey => exact ⟨hf.within, fun _ => hf.due (.inl hkey)⟩
  | value hkind hkey hval hroom =>
      refine ⟨hroom, fun hdue => ?_⟩
      rcases hdue with hdue | hdue
      · exact nomatch hkey.symm.trans hdue
      · cases hdue

theorem ne_of_takesElement (h : TakesElement f g) : g ≠ f := by
  intro heq
  cases h with
  | array => exact absurd (congrArg Scope.written heq) (Nat.succ_ne_self _)
  | key hkind hkey => exact Bool.false_ne_true ((congrArg Scope.keyAnnounced heq).trans hkey)
  | value hkind hkey hval =>
      exact Bool.false_ne_true ((congrArg Scope.keyWritten heq).trans hval)

theorem nextElement_sound (hs : Sound scopes) (h : nextElement scopes = .ok () scopes') :
    Sound scopes' := by
  cases scopes with
  | nil =>
      cases h
      exact hs
  | cons f outer =>
      obtain ⟨g, hg, rfl⟩ := nextElement_cons_ok_iff.mp h
      have hs := List.forall_mem_cons.mp hs
      exact .cons (sound_takesElement hs.1 hg) hs.2

theorem nextElement_error (hs : Sound scopes) (h : nextElement scopes = .error err scopes') :
    scopes' = scopes ∧ err.kind = .writerState := by
  cases scopes with
  | nil => cases h
  | cons f outer =>
      have hf := (List.forall_mem_cons.mp hs).1
      cases hkind : f.kind with
      | array =>
          rw [nextElement_array hkind, count_cons] at h
          split at h <;> cases h
          exact ⟨rfl, rfl⟩
      | binary =>
          rw [nextElement_binary hkind] at h
          cases h
          exact ⟨rfl, rfl⟩
      | map =>
          cases hkey : f.keyAnnounced with
          | true =>
              rw [nextElement_key hkind hkey] at h
              cases h
          | false =>
              cases hval : f.keyWritten with
              | true =>
                  -- the one step that changes a scope before it may fail, which it does not
                  -- because the value is due
                  have hroom := (hf.due (.inr hval)).2
                  rw [nextElement_value hkind hkey hval, count_cons, if_neg (by
                    dsimp only
                    omega)] at h
                  cases h
              | false =>
                  rw [nextElement_unannounced hkind hkey hval] at h
                  cases h
                  exact ⟨rfl, rfl⟩

theorem leave_error {kind : ScopeKind} (h : leave kind scopes = .error err scopes') :
    scopes' = scopes ∧ err.kind = .writerState := by
  cases scopes with
  | nil =>
      cases h
      exact ⟨rfl, rfl⟩
  | cons f outer =>
      rw [leave_cons] at h
      split at h
      · cases h
        exact ⟨rfl, rfl⟩
      · split at h <;> cases h
        exact ⟨rfl, rfl⟩

theorem announceKey_error (h : announceKey scopes = .error err scopes') :
    scopes' = scopes ∧ err.kind = .writerState := by
  cases scopes with
  | nil =>
      cases h
      exact ⟨rfl, rfl⟩
  | cons f outer =>
      rw [announceKey_cons] at h
      split at h
      · cases h
        exact ⟨rfl, rfl⟩
      · split at h
        · cases h
          exact ⟨rfl, rfl⟩
        · split at h <;> cases h
          exact ⟨rfl, rfl⟩

theorem appendBinary_error {n : Nat} (h : appendBinary n scopes = .error err scopes') :
    scopes' = scopes ∧ err.kind = .writerState := by
  cases scopes with
  | nil =>
      cases h
      exact ⟨rfl, rfl⟩
  | cons f outer =>
      rw [appendBinary_cons, count_cons] at h
      split at h
      · cases h
        exact ⟨rfl, rfl⟩
      · split at h <;> cases h
        exact ⟨rfl, rfl⟩

/-- Accounting that fails changes nothing, and it fails for the state of the scopes. -/
theorem account_error (hs : Sound scopes) (h : e.account scopes = .error err scopes') :
    scopes' = scopes ∧ err.kind = .writerState := by
  cases e with
  | chunk bs => exact appendBinary_error h
  | endBinary => exact leave_error h
  | endArray => exact leave_error h
  | endMap => exact leave_error h
  | key => exact announceKey_error h
  | _ => exact nextElement_error hs h

theorem leave_sound {kind : ScopeKind} (hs : Sound scopes)
    (h : leave kind scopes = .ok () scopes') : Sound scopes' := by
  obtain ⟨f, rfl, -⟩ := leave_ok_iff.mp h
  exact (List.forall_mem_cons.mp hs).2

theorem announceKey_sound (hs : Sound scopes) (h : announceKey scopes = .ok () scopes') :
    Sound scopes' := by
  obtain ⟨f, outer, rfl, hkind, -, -, hroom, rfl⟩ := announceKey_inv h
  have hs := List.forall_mem_cons.mp hs
  exact .cons ⟨hs.1.within, fun _ => ⟨hkind, Nat.lt_of_le_of_ne hs.1.within hroom⟩⟩ hs.2

theorem appendBinary_sound {n : Nat} (hs : Sound scopes)
    (h : appendBinary n scopes = .ok () scopes') : Sound scopes' := by
  obtain ⟨f, outer, rfl, hkind, hroom, rfl⟩ := appendBinary_inv h
  have hs := List.forall_mem_cons.mp hs
  refine .cons ⟨hroom, fun hdue => ?_⟩ hs.2
  exact nomatch hkind.symm.trans (hs.1.due hdue).1

theorem account_sound (hs : Sound scopes) (h : e.account scopes = .ok () scopes') :
    Sound scopes' := by
  cases e with
  | chunk bs => exact appendBinary_sound hs h
  | endBinary => exact leave_sound hs h
  | endArray => exact leave_sound hs h
  | endMap => exact leave_sound hs h
  | key => exact announceKey_sound hs h
  | _ => exact nextElement_sound hs h

theorem opens_sound (e : Event) : Sound e.opens?.toList := by
  intro f hf
  rw [Option.mem_toList] at hf
  cases e with
  | beginBinary size =>
      cases size <;> cases hf
      exact ⟨Nat.zero_le _, by simp⟩
  | beginArray size =>
      cases size <;> cases hf
      exact ⟨Nat.zero_le _, by simp⟩
  | beginMap size =>
      cases size <;> cases hf
      exact ⟨Nat.zero_le _, by simp⟩
  | _ => cases hf

end Scopes

namespace Serializer

/-- The states of a serializer over a buffer or a block of memory, whatever it
was told, and whether or not it took it. -/
inductive Reachable : Serializer → Prop
  | start (policy : EncodePolicy) {kind : SinkKind}
      (hkind : kind = .buffer ∨ ∃ capacity, kind = .memory capacity) :
      Reachable (ofSink policy kind)
  | clear {s : Serializer} (h : Reachable s) : Reachable s.clear
  | taken {s t : Serializer} {e : Event} (h : Reachable s) (hstep : step e s = .ok () t) :
      Reachable t
  | failed {s t : Serializer} {e : Event} {err : Error} (h : Reachable s)
      (hstep : step e s = .error err t) : Reachable t

variable {s t : Serializer} {e : Event} {err : Error}

theorem step_cases (e : Event) (s : Serializer) :
    (∃ err, e.refusal? = some err ∧ step e s = .error err s) ∨
      e.refusal? = none ∧
        ((∃ err scopes, e.account s.scopes = .error err scopes ∧
            step e s = .error err { s with scopes }) ∨
          ∃ scopes, e.account s.scopes = .ok () scopes ∧
            ((∃ err sink, e.put s.policy s.sink = .error err sink ∧
                step e s = .error err { s with scopes, sink }) ∨
              ∃ n sink, e.put s.policy s.sink = .ok n sink ∧
                step e s = .ok () { s with
                  scopes := e.opens?.toList ++ scopes, sink, written := s.written + n })) := by
  rw [step_eq]
  rw [stepParts]
  cases e.refusal? with
  | some err => exact .inl ⟨err, rfl, rfl⟩
  | none =>
      refine .inr ⟨rfl, ?_⟩
      cases e.account s.scopes with
      | error err scopes => exact .inl ⟨err, scopes, rfl, rfl⟩
      | ok u scopes =>
          refine .inr ⟨scopes, rfl, ?_⟩
          cases e.put s.policy s.sink with
          | error err sink => exact .inl ⟨err, sink, rfl, rfl⟩
          | ok n sink => exact .inr ⟨n, sink, rfl, rfl⟩

/-- What every step preserves. -/
structure Sound (s : Serializer) : Prop where
  scopes : s.scopes.Sound
  whole : s.sink.IsWhole

theorem Sound.withSink {scopes : Scopes} {sink : Sink} {written : Nat} (h : s.Sound)
    (hscopes : scopes.Sound) (hkind : sink.kind = s.sink.kind) :
    Sound { s with scopes, sink, written } := by
  refine ⟨hscopes, ?_⟩
  show sink.kind = .buffer ∨ _
  rw [hkind]
  exact h.whole

theorem Sound.step (h : s.Sound)
    (hstep : step e s = .ok () t ∨ ∃ err, step e s = .error err t) : t.Sound := by
  rcases step_cases e s with ⟨err, -, heq⟩ | ⟨-, ⟨err, scopes, haccount, heq⟩ |
    ⟨scopes, haccount, ⟨err, sink, hput, heq⟩ | ⟨n, sink, hput, heq⟩⟩⟩
  · rw [heq] at hstep
    rcases hstep with hstep | ⟨_, hstep⟩ <;> cases hstep
    exact h
  · rw [heq] at hstep
    rcases hstep with hstep | ⟨_, hstep⟩ <;> cases hstep
    rw [(Scopes.account_error h.scopes haccount).1]
    exact h
  · rw [heq] at hstep
    rcases hstep with hstep | ⟨_, hstep⟩ <;> cases hstep
    exact h.withSink (Scopes.account_sound h.scopes haccount)
      (Event.keepsKind_put _ _ _ _ (.inr ⟨err, hput⟩))
  -- a scope that the step opened is sound because it is empty
  · rw [heq] at hstep
    rcases hstep with hstep | ⟨_, hstep⟩ <;> cases hstep
    refine h.withSink (fun f hf => ?_) (Event.keepsKind_put _ _ _ _ (.inl ⟨n, hput⟩))
    rcases List.mem_append.mp hf with hf | hf
    · exact Scopes.opens_sound e f hf
    · exact Scopes.account_sound h.scopes haccount f hf

theorem Reachable.sound (h : Reachable s) : s.Sound := by
  induction h with
  | start policy hkind => exact ⟨fun f hf => absurd hf List.not_mem_nil, hkind⟩
  | clear h ih => exact ⟨fun f hf => absurd hf List.not_mem_nil, ih.whole⟩
  | taken h hstep ih => exact ih.step (.inl hstep)
  | failed h hstep ih => exact ih.step (.inr ⟨_, hstep⟩)

/-- Accounting in an open scope for something that does not get out changes the
scope. -/
theorem account_changes {scopes : Scopes} {sink : Sink} (hs : s.sink.IsWhole)
    (haccount : e.account s.scopes = .ok () scopes)
    (hput : e.put s.policy s.sink = .error err sink) (hne : s.scopes ≠ []) :
    scopes ≠ s.scopes := by
  obtain ⟨f, outer, hcons⟩ := List.exists_cons_of_ne_nil hne
  rw [hcons] at haccount ⊢
  cases helem : e.isElement with
  | true =>
      rw [account_of_isElement helem] at haccount
      obtain ⟨g, hg, rfl⟩ := Scopes.nextElement_cons_ok_iff.mp haccount
      intro heq
      exact Scopes.ne_of_takesElement hg (List.cons.inj heq).1
  | false =>
      cases e with
      | chunk bs =>
          obtain ⟨-, -, rfl⟩ := Scopes.appendBinary_cons_ok_iff.mp haccount
          intro heq
          have hwritten := congrArg Scope.written (List.cons.inj heq).1
          -- only the empty chunk leaves the count as it is, and that one always gets out
          obtain rfl : bs = [] := List.eq_nil_of_length_eq_zero (by simpa using hwritten)
          rcases Put.run_cases hs [] with ⟨-, hrun⟩ | ⟨hroom, -⟩
          · have hok : Event.put s.policy (.chunk []) s.sink = .ok 0 (s.sink.append []) :=
              bind_of_ok hrun
            rw [hok] at hput
            cases hput
          · exact hroom fun room _ => Nat.zero_le room
      | endBinary => cases hput
      | endArray => cases hput
      | endMap => cases hput
      | key => cases hput
      | _ => cases helem

/-- A step that fails never counts bytes. It leaves the serializer as it was
exactly if it is refused for the event alone, if the scopes have no place for
the event, or if no scope is open and the first run of the event cannot be
written; every other failure leaves an element counted, or a header put out,
that lacks the rest. -/
theorem failed_step_spares_iff (hs : Reachable s) (h : step e s = .error err t) :
    t.written = s.written ∧
      (t = s ↔
        e.refusal?.isSome ∨ (∃ err, e.account s.scopes = .error err s.scopes) ∨
          s.scopes = [] ∧ (¬ e.Fits ∨ ¬ s.sink.HasRoom (e.head s.policy).length)) := by
  have hsound := hs.sound
  rcases step_cases e s with ⟨_, hrefusal, heq⟩ | ⟨hrefusal, ⟨_, scopes, haccount, heq⟩ |
    ⟨scopes, haccount, ⟨_, sink, hput, heq⟩ | ⟨_, _, -, heq⟩⟩⟩
  -- refused for the event alone, before anything was touched
  · rw [heq] at h
    cases h
    exact ⟨rfl, by simp [hrefusal]⟩
  -- refused by the scopes, which are sound and so unchanged
  · rw [heq] at h
    cases h
    obtain ⟨rfl, -⟩ := Scopes.account_error hsound.scopes haccount
    refine ⟨rfl, fun _ => .inr (.inl ⟨err, haccount⟩), fun _ => rfl⟩
  -- accounted for, and then not put out
  · rw [heq] at h
    cases h
    refine ⟨rfl, ?_⟩
    have hsink := Event.put_error hsound.whole hput
    refine ⟨fun hsame => ?_, ?_⟩
    · have hscopes : scopes = s.scopes := congrArg Serializer.scopes hsame
      have hempty : s.scopes = [] := Classical.byContradiction fun hne =>
        account_changes hsound.whole haccount hput hne hscopes
      exact .inr (.inr ⟨hempty, hsink.mp (congrArg Serializer.sink hsame)⟩)
    · rintro (hrefused | ⟨_, hrefused⟩ | ⟨hempty, hnone⟩)
      · rw [hrefusal] at hrefused
        cases hrefused
      · rw [haccount] at hrefused
        cases hrefused
      · have hscopes : scopes = s.scopes := by
          rw [hempty] at haccount ⊢
          cases e <;> cases haccount <;> rfl
        rw [hscopes, hsink.mpr hnone]
  · rw [heq] at h
    cases h

/-- A text that does not fit behind the header of its array is counted
nevertheless, and the array can be closed without it. -/
theorem failed_step_counts_element :
    ∃ s t : Serializer, Reachable s ∧
      step (.text (List.replicate 9 0x61)) s = .error (.bufferFull (.memory 1 0)) t ∧ t ≠ s ∧
      ∃ closed : Serializer, step .endArray t = .ok () closed ∧ closed.scopes = [] ∧
        closed.sink.out = #[0x91] := by
  have hstart : Reachable (ofSink .lossless (.memory 1)) := .start .lossless (.inr ⟨1, rfl⟩)
  have hs : Reachable _ := .taken (e := .beginArray (some 1)) hstart rfl
  refine ⟨_, _, hs, rfl, ?_, _, rfl, rfl, rfl⟩
  intro heq
  exact absurd (congrArg Serializer.scopes heq) (by decide)

/-- Where there is no open scope, a text that finds no room for its header
leaves no trace. -/
theorem failed_step_spares_root :
    ∃ t, Reachable (ofSink .lossless (.memory 0)) ∧
      step (.text [0x61]) (ofSink .lossless (.memory 0)) = .error (.bufferFull (.memory 1 0)) t ∧
      t = ofSink .lossless (.memory 0) := by
  have hstart : Reachable (ofSink .lossless (.memory 0)) := .start .lossless (.inr ⟨0, rfl⟩)
  have hstep : step (.text [0x61]) (ofSink .lossless (.memory 0)) =
      .error (.bufferFull (.memory 1 0)) (ofSink .lossless (.memory 0)) := rfl
  refine ⟨_, hstart, hstep, ?_⟩
  refine (failed_step_spares_iff hstart hstep).2.mpr (.inr (.inr ⟨rfl, .inr ?_⟩))
  intro hroom
  exact absurd (hroom 0 rfl) (by decide)

end Serializer

end MsgPack
