import MsgPack.Proofs.Utf8
import MsgPack.Proofs.Wire.Writing
import MsgPack.Proofs.Writer.Telling

/-!
What a serializer puts out. Into a buffer, every event that is not refused for
itself writes its bytes, and a run of events writes theirs one after another
while the scopes go their own way.
-/

namespace MsgPack

open Put (maxLength runAll)

namespace Event

/-- Whether the lengths that an event announces can be announced. -/
def Fits : Event → Prop
  | .text bs => bs.length ≤ maxLength
  | .extension e => e.data.length ≤ maxLength
  | .beginBinary (some n) | .beginArray (some n) | .beginMap (some n) => n ≤ maxLength
  | _ => True

/-- What an event adds to a buffer. -/
def bytes (policy : EncodePolicy) (e : Event) : Bytes := Put.bytes (e.put policy)

variable {policy : EncodePolicy} {e : Event}

/-- What an event writes in its first run: the header of a text or an
extension, and of every other event the whole. -/
def head (policy : EncodePolicy) : Event → Bytes
  | .char cp => (Utf8.encode? cp).elim [] fun bs => Put.bytes (Put.textHeader bs.length)
  | .text bs => Put.bytes (Put.textHeader bs.length)
  | .extension e => Put.bytes (Put.extensionHeader e.type e.data.length)
  | e => e.bytes policy

theorem put_single {put : Put Nat} {bs : Bytes} (h : put = runAll [bs]) :
    put = runAll [Put.bytes put] := by
  have hbytes : Put.bytes put = bs := by
    rw [h, Put.bytes_runAll]
    simp
  rwa [hbytes]

theorem text_put {bs : Bytes} (h : bs.length ≤ maxLength) :
    Put.bytes (Put.textHeader bs.length) ≠ [] ∧
      Put.text bs = runAll [Put.bytes (Put.textHeader bs.length), bs] := by
  obtain ⟨header, hput, hheader⟩ := Put.textHeader_eq h
  have hbytes := put_single hput
  refine ⟨?_, Put.text_runs hbytes⟩
  rw [hput, Put.bytes_runAll]
  simpa using Get.header_ne_nil hheader

theorem extension_put {x : Extension} (h : x.data.length ≤ maxLength) :
    Put.bytes (Put.extensionHeader x.type x.data.length) ≠ [] ∧
      Put.extension x = runAll [Put.bytes (Put.extensionHeader x.type x.data.length), x.data] := by
  obtain ⟨_, hput, header, hheader, rfl⟩ := Put.extensionHeader_eq x.type h
  have hbytes := put_single hput
  refine ⟨?_, Put.extension_runs hbytes⟩
  rw [hput, Put.bytes_runAll]
  simp

/-- Writing an event is its first run, and the content of a text or an
extension as a second. -/
theorem put_runs (policy : EncodePolicy) (h : e.Fits) :
    e.put policy = runAll [] ∨ e.put policy = runAll [e.head policy] ∨
      e.head policy ≠ [] ∧ ∃ content, e.put policy = runAll [e.head policy, content] := by
  cases e with
  | nil => exact .inr (.inl (put_single (Put.marker_eq _)))
  | bool b => exact .inr (.inl (put_single (Put.marker_eq _)))
  | int t i =>
      obtain ⟨bs, hput, -⟩ := policy.int_eq t i
      exact .inr (.inl (put_single hput))
  | float p x =>
      obtain ⟨bs, hput, -⟩ := policy.float_eq p x
      exact .inr (.inl (put_single hput))
  | char cp =>
      simp only [put, head]
      cases hcp : Utf8.encode? cp with
      | none => exact .inl Put.runAll_nil.symm
      | some bs =>
          have hlen := Utf8.length_of_encode hcp
          have hfits : bs.length ≤ maxLength := by
            rw [maxLength]
            omega
          obtain ⟨hne, hput⟩ := text_put hfits
          exact .inr (.inr ⟨hne, bs, hput⟩)
  | text bs =>
      obtain ⟨hne, hput⟩ := text_put h
      exact .inr (.inr ⟨hne, bs, hput⟩)
  | extension x =>
      obtain ⟨hne, hput⟩ := extension_put h
      exact .inr (.inr ⟨hne, x.data, hput⟩)
  | beginBinary size =>
      cases size with
      | none => exact .inl Put.runAll_nil.symm
      | some n =>
          obtain ⟨header, hput, -⟩ := Put.binaryHeader_eq h
          exact .inr (.inl (put_single hput))
  | beginArray size =>
      cases size with
      | none => exact .inl Put.runAll_nil.symm
      | some n =>
          obtain ⟨header, hput, -⟩ := Put.arrayHeader_eq h
          exact .inr (.inl (put_single hput))
  | beginMap size =>
      cases size with
      | none => exact .inl Put.runAll_nil.symm
      | some n =>
          obtain ⟨header, hput, -⟩ := Put.mapHeader_eq h
          exact .inr (.inl (put_single hput))
  | chunk bs => exact .inr (.inl (put_single (Put.run_eq_runAll bs)))
  | endBinary => exact .inl Put.runAll_nil.symm
  | endArray => exact .inl Put.runAll_nil.symm
  | endMap => exact .inl Put.runAll_nil.symm
  | key => exact .inl Put.runAll_nil.symm

theorem put_of_fits (policy : EncodePolicy) (h : e.Fits) : ∃ runs, e.put policy = runAll runs := by
  rcases put_runs policy h with hput | hput | ⟨-, content, hput⟩
  · exact ⟨_, hput⟩
  · exact ⟨_, hput⟩
  · exact ⟨_, hput⟩

theorem put_of_not_fits (policy : EncodePolicy) (h : ¬ e.Fits) :
    ∃ err, e.put policy = throw err := by
  cases e with
  | text bs => exact ⟨_, Put.text_refused (Nat.not_le.mp h)⟩
  | extension x => exact ⟨_, Put.extension_refused (Nat.not_le.mp h)⟩
  | beginBinary size =>
      cases size with
      | none => exact absurd trivial h
      | some n => exact ⟨_, Put.binaryHeader_refused (Nat.not_le.mp h)⟩
  | beginArray size =>
      cases size with
      | none => exact absurd trivial h
      | some n => exact ⟨_, Put.arrayHeader_refused (Nat.not_le.mp h)⟩
  | beginMap size =>
      cases size with
      | none => exact absurd trivial h
      | some n => exact ⟨_, Put.mapHeader_refused (Nat.not_le.mp h)⟩
  | _ => exact absurd trivial h

/-- An event that can be written wherever there is a place for it. -/
def Writable (e : Event) : Prop := e.refusal? = none ∧ e.Fits

theorem writes_put (h : e.Fits) : Put.Writes (e.put policy) (e.bytes policy) := by
  obtain ⟨runs, hput⟩ := put_of_fits policy h
  have hwrites : Put.Writes (e.put policy) runs.flatten := ⟨runs, hput, rfl⟩
  rwa [← hwrites.bytes_eq] at hwrites

theorem put_buffer (h : e.Fits) {s : Sink} (hs : s.kind = .buffer) :
    e.put policy s = .ok (e.bytes policy).length (s.append (e.bytes policy)) :=
  (writes_put h).buffer hs

end Event

namespace Serializer

variable {s t : Serializer}

/-- The serializer after `bs` more bytes, with other scopes. -/
def extend (s : Serializer) (scopes : Scopes) (bs : Bytes) : Serializer :=
  { s with scopes, sink := s.sink.append bs, written := s.written + bs.length }

theorem extend_extend (s : Serializer) (scopes scopes' : Scopes) (xs ys : Bytes) :
    (s.extend scopes xs).extend scopes' ys = s.extend scopes' (xs ++ ys) := by
  simp only [extend, Sink.append_append, List.length_append, Nat.add_assoc]

/-- A step into a buffer succeeds if the event can be written and the scopes
have a place for it. -/
theorem step_ok_iff {e : Event} (hs : s.sink.kind = .buffer) :
    step e s = .ok () t ↔
      e.Writable ∧ ∃ scopes, e.act s.scopes = .ok () scopes ∧
        t = s.extend scopes (e.bytes s.policy) := by
  rw [step_eq]
  unfold stepParts Event.Writable
  cases hrefusal : e.refusal? with
  | some err => simp
  | none =>
      rw [Scopes.act_apply]
      cases e.account s.scopes with
      | error err scopes => simp
      | ok u scopes =>
          by_cases hfits : e.Fits
          · simp [Event.put_buffer hfits hs, hfits, extend, eq_comm]
          · obtain ⟨err, hput⟩ := Event.put_of_not_fits s.policy hfits
            simp [hput, hfits]

/-- A run into a buffer is a run of the bookkeeping with bytes put out
alongside. -/
theorem run_ok_iff {es : List Event} (hs : s.sink.kind = .buffer) :
    Writer.run es s = .ok () t ↔
      (∀ e ∈ es, e.Writable) ∧ ∃ scopes, Scopes.tell es s.scopes = .ok () scopes ∧
        t = s.extend scopes (es.flatMap (Event.bytes s.policy)) := by
  induction es generalizing s with
  | nil =>
      refine ⟨?_, ?_⟩
      · rintro ⟨⟩
        exact ⟨by simp, t.scopes, rfl, by simp [extend]⟩
      · rintro ⟨-, scopes, h, rfl⟩
        cases h
        simp [extend, Writer.run]
  | cons e es ih =>
      rw [Writer.run_cons, bind_eq_ok_iff, Scopes.tell_cons, List.forall_mem_cons, List.flatMap_cons]
      refine ⟨?_, ?_⟩
      · rintro ⟨_, u, hstep, hrest⟩
        obtain ⟨he, scopes, hact, rfl⟩ := (step_ok_iff hs).mp hstep
        obtain ⟨hes, scopes', htell, rfl⟩ := (ih (s := s.extend scopes _) hs).mp hrest
        refine ⟨⟨he, hes⟩, scopes', ?_, extend_extend ..⟩
        rw [bind_of_ok hact]
        exact htell
      · rintro ⟨⟨he, hes⟩, scopes', htell, rfl⟩
        obtain ⟨_, scopes, hact, hrest⟩ := bind_eq_ok_iff.mp htell
        refine ⟨(), _, (step_ok_iff hs).mpr ⟨he, scopes, hact, rfl⟩, ?_⟩
        refine (ih (s := s.extend scopes _) hs).mpr ⟨hes, scopes', hrest, ?_⟩
        rw [extend_extend]
        rfl

end Serializer

end MsgPack
