import Mathlib.Data.List.Forall2
import MsgPack.Proofs.Value.Encoding
import MsgPack.Proofs.Writer.Assembly
import MsgPack.Proofs.Writer.Failure
import MsgPack.Proofs.Writer.WellFormed

/-!
The two writers agree. Until its root is complete, a builder refuses what a
serializer over a buffer refuses, for the same kind of reason, and a refusal
leaves both as they are. They have therefore been told the same events at any
time, and what the builder has assembled in the end is found in what the
serializer has put out.
-/

namespace MsgPack

open Grammar (Derives)
open Scopes (TakesElement nextElement_cons_ok_iff appendBinary_inv announceKey_inv leave_ok_iff)

/-! ### Builders before their root is complete -/

namespace Builder

variable {b c : Builder} {e : Event} {inner scopes : Scopes} {frames : List Frame}

/-- Each scope has its container under construction. Binaries have none. -/
abbrev Framed (scopes : Scopes) (frames : List Frame) : Prop :=
  List.Forall₂ (fun f _ => f.kind ≠ .binary) scopes frames

/-- A builder that waits for its root. A binary may be open inside all
containers. -/
structure Growing (b : Builder) : Prop where
  sound : Scopes.Sound b.scopes
  root : b.result = none
  shape : Framed b.scopes b.frames ∨
    ∃ f outer, b.scopes = f :: outer ∧ f.kind = .binary ∧ Framed outer b.frames

theorem growing_empty : Growing empty :=
  ⟨fun _ h => (nomatch h), rfl, .inl .nil⟩

/-- Placing a value leaves a builder growing or completes its root. -/
theorem Growing.place (hsound : Scopes.Sound b.scopes) (hroot : b.result = none)
    (hframed : Framed b.scopes b.frames) (v : OwnedValue) :
    ∃ c, place v b = .ok () c ∧ (Growing c ∨ c.ready = true) := by
  rw [place_apply]
  obtain ⟨frames, result, binary, scopes⟩ := b
  obtain rfl : result = none := hroot
  cases hframed with
  | nil => exact ⟨_, rfl, .inr rfl⟩
  | cons hf htail => exact ⟨_, rfl, .inl ⟨hsound, rfl, .inl (.cons hf htail)⟩⟩

theorem kind_of_takesElement {f g : Scope} (h : TakesElement f g) :
    g.kind = f.kind ∧ f.kind ≠ .binary := by
  cases h with
  | array hf _ => exact ⟨rfl, by rw [hf]; decide⟩
  | key hf _ => exact ⟨rfl, by rw [hf]; decide⟩
  | value hf _ _ _ => exact ⟨rfl, by rw [hf]; decide⟩

theorem Growing.framed_of_cons (hb : Growing b) {f : Scope} {outer : Scopes}
    (h : b.scopes = f :: outer) (hf : f.kind ≠ .binary) :
    ∃ top frames, b.frames = top :: frames ∧ Framed outer frames := by
  rcases hb.shape with hframed | ⟨f', outer', heq, hbinary, -⟩
  · rw [h, Framed, List.forall₂_cons_left_iff] at hframed
    obtain ⟨top, frames, -, htail, hframes⟩ := hframed
    exact ⟨top, frames, hframes, htail⟩
  · obtain ⟨rfl, -⟩ := List.cons.inj (h.symm.trans heq)
    exact absurd hbinary hf

theorem Growing.framed_of_binary (hb : Growing b) {f : Scope} {outer : Scopes}
    (h : b.scopes = f :: outer) (hf : f.kind = .binary) : Framed outer b.frames := by
  rcases hb.shape with hframed | ⟨f', outer', heq, -, hframed⟩
  · rw [h, Framed, List.forall₂_cons_left_iff] at hframed
    obtain ⟨_, _, hne, -⟩ := hframed
    exact absurd hf hne
  · obtain ⟨-, rfl⟩ := List.cons.inj (h.symm.trans heq)
    exact hframed

/-- An element finds no binary open, and leaves the scopes in their places. -/
theorem Growing.nextElement (hb : Growing b) (h : Scopes.nextElement b.scopes = .ok () inner) :
    Framed inner b.frames := by
  cases hscopes : b.scopes with
  | nil =>
      rw [hscopes] at h
      cases h
      rcases hb.shape with hframed | ⟨f, outer, heq, -⟩
      · rwa [hscopes] at hframed
      · exact nomatch hscopes.symm.trans heq
  | cons f outer =>
      rw [hscopes] at h
      obtain ⟨g, hg, rfl⟩ := nextElement_cons_ok_iff.mp h
      obtain ⟨hkind, hne⟩ := kind_of_takesElement hg
      obtain ⟨top, frames, hframes, htail⟩ := hb.framed_of_cons hscopes hne
      rw [hframes]
      exact .cons (hkind ▸ hne) htail

/-- The end of a container places it, whose scope was the innermost. -/
theorem Growing.finish (hb : Growing b) {kind : ScopeKind} (hkind : kind ≠ .binary)
    (h : Scopes.leave kind b.scopes = .ok () inner) :
    ∃ c, finish { b with scopes := inner } = .ok () c ∧ (Growing c ∨ c.ready = true) := by
  have hsound := Scopes.leave_sound hb.sound h
  obtain ⟨f, hscopes, rfl, -⟩ := leave_ok_iff.mp h
  obtain ⟨top, frames, hframes, htail⟩ := hb.framed_of_cons hscopes hkind
  rw [finish_apply]
  simp only [hframes]
  exact Growing.place (b := { b with scopes := inner, frames }) hsound hb.root htail top.value

/-- What is accounted for is assembled, and the builder goes on growing or is
ready. -/
theorem Growing.assemble (hb : Growing b) (hrefusal : e.refusal? = none)
    (haccount : e.account b.scopes = .ok () inner) :
    ∃ c, assemble e { b with scopes := e.opens?.toList ++ inner } = .ok () c ∧
      (Growing c ∨ c.ready = true) := by
  have hsound := Scopes.account_sound hb.sound haccount
  have hroot := hb.root
  have hopens := Scopes.opens_sound e
  cases e with
  | chunk bs =>
      obtain ⟨f, outer, hscopes, hf, -, rfl⟩ := appendBinary_inv haccount
      have hframed := hb.framed_of_binary hscopes hf
      exact ⟨_, rfl, .inl ⟨hsound, hroot, .inr ⟨_, outer, rfl, hf, hframed⟩⟩⟩
  | endBinary =>
      obtain ⟨f, hscopes, hf, -⟩ := leave_ok_iff.mp haccount
      have hframed := hb.framed_of_binary hscopes hf
      exact Growing.place (b := { b with scopes := inner, binary := [] }) hsound hroot hframed _
  | endArray => exact hb.finish (by decide) haccount
  | endMap => exact hb.finish (by decide) haccount
  | key =>
      obtain ⟨f, outer, hscopes, hf, -, -, -, rfl⟩ := announceKey_inv haccount
      have hne : f.kind ≠ .binary := by rw [hf]; decide
      obtain ⟨top, frames, hframes, htail⟩ := hb.framed_of_cons hscopes hne
      refine ⟨_, rfl, .inl ⟨hsound, hroot, .inl ?_⟩⟩
      show Framed _ b.frames
      rw [hframes]
      exact .cons hne htail
  | beginBinary size =>
      cases size with
      | none => cases hrefusal
      | some n =>
          exact ⟨_, rfl, .inl ⟨.cons (hopens _ (.head _)) hsound, hroot,
            .inr ⟨_, inner, rfl, rfl, hb.nextElement haccount⟩⟩⟩
  | beginArray size =>
      cases size with
      | none => cases hrefusal
      | some n =>
          exact ⟨_, rfl, .inl ⟨.cons (hopens _ (.head _)) hsound, hroot,
            .inl (.cons nofun (hb.nextElement haccount))⟩⟩
  | beginMap size =>
      cases size with
      | none => cases hrefusal
      | some n =>
          exact ⟨_, rfl, .inl ⟨.cons (hopens _ (.head _)) hsound, hroot,
            .inl (.cons nofun (hb.nextElement haccount))⟩⟩
  | _ =>
      exact Growing.place (b := { b with scopes := inner }) hsound hroot
        (hb.nextElement haccount) _

end Builder

/-! ### Refusals -/

/-- The kinds of failure that an event may meet while there is room for it. -/
def Event.MayFail (e : Event) (kind : ErrorKind) : Prop :=
  kind = .writerState ∨ kind = .lengthUnknown ∨
    kind = .invalidFormat ∧ ∃ cp, e = .char cp ∧ Utf8.encode? cp = none

theorem Event.mayFail_of_refusal {e : Event} {err : Error} (h : e.refusal? = some err) :
    e.MayFail err.kind := by
  cases e with
  | char cp =>
      simp only [refusal?] at h
      split at h <;> cases h
      next hcp => exact .inr (.inr ⟨rfl, cp, rfl, by simpa using hcp⟩)
  | beginBinary size =>
      cases size <;> cases h
      exact .inr (.inl rfl)
  | beginArray size =>
      cases size <;> cases h
      exact .inr (.inl rfl)
  | beginMap size =>
      cases size <;> cases h
      exact .inr (.inl rfl)
  | _ => cases h

/-! ### Steps of both -/

/-- The two have been told the same events, and took them all. -/
def Agree (policy : EncodePolicy) (b : Builder) (s : Serializer) : Prop :=
  ∃ es, Writer.run es Builder.empty = .ok () b ∧
    Writer.run es (Serializer.ofSink policy .buffer) = .ok () s

section Agree

variable {policy : EncodePolicy} {b c : Builder} {s t : Serializer} {e : Event}

theorem run_concat {ω : Type} [Writer ω] {es : List Event} {w w' w'' : ω}
    (hes : Writer.run es w = .ok () w') (he : Writer.step e w' = .ok () w'') :
    Writer.run (es ++ [e]) w = .ok () w'' := by
  have happend : (Writer.run (es ++ [e]) : EStateM Error ω Unit) =
      Writer.run es >>= fun _ => Writer.step e := by
    simp [Writer.run]
  rw [happend, bind_of_ok hes, he]

theorem Agree.start (policy : EncodePolicy) :
    Agree policy Builder.empty (.ofSink policy .buffer) :=
  ⟨[], rfl, rfl⟩

theorem Agree.scopes (h : Agree policy b s) : b.scopes = s.scopes := by
  obtain ⟨es, hb, hs⟩ := h
  obtain ⟨htell, -⟩ := Builder.run_ok hb
  obtain ⟨-, scopes, htell', rfl⟩ := (Serializer.run_ok_iff rfl).mp hs
  obtain ⟨-, heq⟩ := EStateM.Result.ok.inj (htell.symm.trans htell')
  exact heq

theorem Agree.buffer (h : Agree policy b s) : s.sink.kind = .buffer := by
  obtain ⟨es, -, hs⟩ := h
  obtain ⟨-, scopes, -, rfl⟩ := (Serializer.run_ok_iff rfl).mp hs
  rfl

/-- One event: both take it, or both refuse it and stay as they are. -/
theorem Agree.step (h : Agree policy b s) (hb : b.Growing) (he : e.Fits) :
    (∃ err err', Builder.step e b = .error err b ∧ Serializer.step e s = .error err' s ∧
      err.kind = err'.kind ∧ e.MayFail err.kind) ∨
    ∃ c t, Builder.step e b = .ok () c ∧ Serializer.step e s = .ok () t ∧
      Agree policy c t ∧ (c.Growing ∨ c.ready = true) := by
  have hscopes := h.scopes
  have hserializer := Serializer.step_eq e s
  unfold Serializer.stepParts at hserializer
  cases hrefusal : e.refusal? with
  | some err =>
      obtain ⟨err', hstep, hkind⟩ := Builder.step_refused hrefusal b
      rw [hrefusal] at hserializer
      refine .inl ⟨err', err, hstep, hserializer, hkind, ?_⟩
      rw [hkind]
      exact Event.mayFail_of_refusal hrefusal
  | none =>
      have hbuilder := Builder.step_eq hrefusal b
      rw [hrefusal, ← hscopes] at hserializer
      cases haccount : e.account b.scopes with
      | error err inner =>
          -- accounting that fails changes nothing, in the one as in the other
          obtain ⟨rfl, hkind⟩ := Scopes.account_error hb.sound haccount
          rw [haccount] at hbuilder hserializer
          refine .inl ⟨err, err, hbuilder, ?_, rfl, .inl hkind⟩
          rw [hserializer, hscopes]
      | ok u inner =>
          obtain ⟨c, hassemble, hc⟩ := hb.assemble hrefusal haccount
          rw [haccount] at hbuilder hserializer
          have hput : e.put s.policy s.sink = _ := Event.put_buffer he h.buffer
          simp only [hput] at hserializer
          obtain ⟨es, hes, hes'⟩ := h
          refine .inr ⟨c, _, hbuilder.trans hassemble, hserializer, ?_, hc⟩
          exact ⟨es ++ [e], run_concat hes (hbuilder.trans hassemble), run_concat hes' hserializer⟩

end Agree

/-! ### Calls -/

namespace Writer

variable {ω : Type} [Writer ω]

/-- One call: a few events, told up to the first that is refused. Answers with
what it failed with, if it failed. -/
def attempt (call : List Event) (w : ω) : Option Error × ω :=
  match run call w with
  | .ok _ w => (none, w)
  | .error err w => (some err, w)

/-- One call after another, with failures ignored. -/
def attempts : List (List Event) → ω → List (Option Error) × ω
  | [], w => ([], w)
  | call :: calls, w =>
    let (failure, w) := attempt call w
    let (failures, w) := attempts calls w
    (failure :: failures, w)

end Writer

namespace Builder

/-- Whether the root is incomplete before each event that a call gets to tell. -/
def awaits : List Event → Builder → Bool
  | [], _ => true
  | e :: es, b =>
    !b.ready &&
      match step e b with
      | .ok _ b => awaits es b
      | .error .. => true

/-- Whether the root is incomplete before each event of some calls. -/
def awaitsAll : List (List Event) → Builder → Bool
  | [], _ => true
  | call :: calls, b => awaits call b && awaitsAll calls (Writer.attempt call b).2

end Builder

/-- The kind of a failure, if there is one. -/
abbrev failureKind (failure : Option Error) : Option ErrorKind := failure.map Error.kind

section Calls

variable {policy : EncodePolicy} {b : Builder} {s : Serializer}

/-- Where the two writers are between calls. -/
structure Together (policy : EncodePolicy) (b : Builder) (s : Serializer) : Prop where
  agree : Agree policy b s
  stage : b.Growing ∨ b.ready = true

/-- Both writers take a call, or both fail for the same kind of reason, and they
stay together. -/
theorem Together.attempt {call : List Event} (h : Together policy b s)
    (hawaits : b.awaits call = true) (hfits : ∀ e ∈ call, e.Fits) :
    failureKind (Writer.attempt call b).1 = failureKind (Writer.attempt call s).1 ∧
      (∀ kind, failureKind (Writer.attempt call b).1 = some kind → ∃ e ∈ call, e.MayFail kind) ∧
      Together policy (Writer.attempt call b).2 (Writer.attempt call s).2 := by
  induction call generalizing b s with
  | nil => exact ⟨rfl, fun kind hkind => (nomatch hkind), h⟩
  | cons e es ih =>
      rw [Builder.awaits, Bool.and_eq_true, Bool.not_eq_true'] at hawaits
      obtain ⟨hready, hrest⟩ := hawaits
      rw [List.forall_mem_cons] at hfits
      have hb : b.Growing := h.stage.resolve_right (by simp [hready])
      unfold Writer.attempt
      rw [Writer.run_cons, Writer.run_cons]
      rcases h.agree.step hb hfits.1 with
        ⟨err, err', hbuilder, hserializer, hkind, hmay⟩ | ⟨c, t, hbuilder, hserializer, hagree, hc⟩
      · have hb' : Writer.step e b = .error err b := hbuilder
        have hs' : Writer.step e s = .error err' s := hserializer
        rw [bind_of_error hb', bind_of_error hs']
        refine ⟨congrArg some hkind, fun kind hkind => ?_, h⟩
        obtain rfl := Option.some.inj hkind
        exact ⟨e, .head _, hmay⟩
      · have hb' : Writer.step e b = .ok () c := hbuilder
        have hs' : Writer.step e s = .ok () t := hserializer
        rw [hbuilder] at hrest
        rw [bind_of_ok hb', bind_of_ok hs']
        obtain ⟨hkinds, hmay, htogether⟩ := ih ⟨hagree, hc⟩ hrest hfits.2
        refine ⟨hkinds, fun kind hkind => ?_, htogether⟩
        obtain ⟨e', he', hmay⟩ := hmay kind hkind
        exact ⟨e', .tail _ he', hmay⟩

theorem Together.attempts {calls : List (List Event)} (h : Together policy b s)
    (hawaits : b.awaitsAll calls = true) (hfits : ∀ call ∈ calls, ∀ e ∈ call, e.Fits) :
    (Writer.attempts calls b).1.map failureKind = (Writer.attempts calls s).1.map failureKind ∧
      (∀ kind, some kind ∈ (Writer.attempts calls b).1.map failureKind →
        ∃ e ∈ calls.flatten, e.MayFail kind) ∧
      Together policy (Writer.attempts calls b).2 (Writer.attempts calls s).2 := by
  induction calls generalizing b s with
  | nil => exact ⟨rfl, fun kind hkind => (nomatch hkind), h⟩
  | cons call calls ih =>
      rw [Builder.awaitsAll, Bool.and_eq_true] at hawaits
      rw [List.forall_mem_cons] at hfits
      obtain ⟨hkind, hmay, htogether⟩ := h.attempt hawaits.1 hfits.1
      obtain ⟨hkinds, hmays, hend⟩ := ih htogether hawaits.2 hfits.2
      refine ⟨?_, fun kind hmem => ?_, hend⟩
      · exact congrArg₂ List.cons hkind hkinds
      · rw [List.flatten_cons]
        rcases List.mem_cons.mp hmem with heq | hmem
        · obtain ⟨e, he, hmay⟩ := hmay kind heq.symm
          exact ⟨e, List.mem_append_left _ he, hmay⟩
        · obtain ⟨e, he, hmay⟩ := hmays kind hmem
          exact ⟨e, List.mem_append_right _ he, hmay⟩

/-- What the builder releases is what a reader finds in the output. -/
theorem Agree.get {v : OwnedValue} (hpolicy : policy ≠ .aggressive) (h : Agree policy b s)
    (hscopes : b.scopes = []) (hresult : b.result = some v)
    (hspelled : v.tree.Everywhere Tree.Spelled) {depth : Nat} (hdepth : v.tree.height ≤ depth) :
    Get.run (Value.get depth) .memory s.sink.out.toList =
      .ok v { kind := .memory, left := [], position := s.sink.out.size } := by
  obtain ⟨es, hbuilder, hserializer⟩ := h
  obtain ⟨hes, scopes, -, rfl⟩ := (Serializer.run_ok_iff rfl).mp hserializer
  obtain ⟨t, htells, rfl⟩ := Builder.tells_of_run hpolicy hbuilder hscopes hresult
  have hout : (Serializer.extend (.ofSink policy .buffer) scopes
      (es.flatMap (Event.bytes policy))).sink.out.toList = t.bytes policy := by
    rw [Serializer.out_extend, htells.flatMap_bytes, Tree.bytesElems, Tree.bytesElems,
      List.append_nil]
  have hderives : Derives depth (t.bytes policy) (t.value policy) :=
    Tree.derives (htells.everywhere short_of_writable hes).1 (Tree.spelled_of_value t hspelled)
      (Nat.le_trans (Nat.le_of_eq (Tree.height_value t).symm) hdepth)
  have hget := Value.run_get_of_derives [] hderives
  rw [← hout, List.append_nil] at hget
  rwa [Array.length_toList] at hget

end Calls

/-- Whatever is called on a builder until its root is complete fails there
exactly if it fails on a serializer over a buffer, for the same kind of reason:
the state of the scopes, a length that is not known, or a character that is no
scalar value. When the root is complete the builder releases it, and if its
texts are valid it is what a reader finds in the output of the serializer. -/
theorem writers_agree {policy : EncodePolicy} (hpolicy : policy ≠ .aggressive)
    {calls : List (List Event)} (hfits : ∀ call ∈ calls, ∀ e ∈ call, e.Fits)
    (hawaits : Builder.empty.awaitsAll calls = true) :
    let built := Writer.attempts calls Builder.empty
    let written := Writer.attempts calls (Serializer.ofSink policy .buffer)
    built.1.map failureKind = written.1.map failureKind ∧
      (∀ kind, some kind ∈ built.1.map failureKind → ∃ e ∈ calls.flatten, e.MayFail kind) ∧
      (built.2.ready = true → ∃ v b, Builder.release built.2 = .ok v b ∧
        (v.tree.Everywhere Tree.Spelled → ∀ depth, v.tree.height ≤ depth →
          Get.run (Value.get depth) .memory written.2.sink.out.toList =
            .ok v { kind := .memory, left := [], position := written.2.sink.out.size })) := by
  have hstart : Together policy Builder.empty (.ofSink policy .buffer) :=
    ⟨.start policy, .inl Builder.growing_empty⟩
  obtain ⟨hkinds, hmay, htogether⟩ := hstart.attempts hawaits hfits
  refine ⟨hkinds, hmay, fun hready => ?_⟩
  -- a builder is ready with a value and with no scope open
  obtain ⟨hsome, hscopes⟩ := Bool.and_eq_true_iff.mp hready
  obtain ⟨v, hresult⟩ := Option.isSome_iff_exists.mp hsome
  refine ⟨v, Builder.empty, ?_, fun hspelled depth hdepth => ?_⟩
  · unfold Builder.release
    rw [bind_of_ok (get_apply _)]
    simp only [hresult, hready]
    rfl
  · exact htogether.agree.get hpolicy (List.isEmpty_iff.mp hscopes) hresult hspelled hdepth

/-- A map of a boolean to a binary in two pieces, with a call on the way that both
writers refuse. -/
theorem writers_agree_map :
    let calls : List (List Event) :=
      [[.beginMap (some 1)], [.nil], [.key, .bool true, .beginBinary (some 2), .chunk [1]],
        [.chunk [2], .endBinary, .endMap]]
    let written := Writer.attempts calls (Serializer.ofSink .lossless .buffer)
    written.1.map failureKind = [none, some .writerState, none, none] ∧
      Get.run (Value.get 1 : Get OwnedValue) .memory written.2.sink.out.toList =
        .ok (.map [(.bool true, .binary [1, 2])])
          { kind := .memory, left := [], position := written.2.sink.out.size } := by
  intro calls written
  -- the builder after the first call and the refused one, and after the third
  let started : Builder := { frames := [.map [] none], scopes := [{ kind := .map, declared := 1 }] }
  let chunked : Builder :=
    { frames := [.map [] (some (.bool true))]
      binary := [1]
      scopes := [{ kind := .binary, declared := 2, written := 1 },
        { kind := .map, declared := 1, written := 1 }] }
  have hbegin : Writer.attempt [.beginMap (some 1)] Builder.empty = (none, started) := rfl
  have hrefused : Writer.attempt [.nil] started =
      (some (.writerState .valueWithoutKey), started) := rfl
  have hchunk : Writer.attempt [.key, .bool true, .beginBinary (some 2), .chunk [1]] started =
      (none, chunked) := rfl
  have hend : Writer.attempt [.chunk [2], .endBinary, .endMap] chunked =
      (none, { result := some (.map [(.bool true, .binary [1, 2])]) }) := rfl
  have hbuilt : Writer.attempts calls Builder.empty =
      ([none, some (.writerState .valueWithoutKey), none, none],
        { result := some (.map [(.bool true, .binary [1, 2])]) }) := by
    simp only [calls, Writer.attempts, hbegin, hrefused, hchunk, hend]
  have hfits : ∀ call ∈ calls, ∀ e ∈ call, e.Fits := by
    simp [calls, Event.Fits, Put.maxLength]
  have hpolicy : EncodePolicy.lossless ≠ .aggressive := by decide
  obtain ⟨hkinds, -, hget⟩ := writers_agree hpolicy hfits (by rfl)
  rw [hbuilt] at hkinds hget
  obtain ⟨v, b, hrelease, hget⟩ := hget rfl
  obtain ⟨rfl, -⟩ := EStateM.Result.ok.inj hrelease
  exact ⟨hkinds.symm, hget (by decide) 1 (by decide)⟩

end MsgPack
