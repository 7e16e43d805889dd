import MsgPack.Proofs.Writer.Agreement
import MsgPack.Proofs.Writer.Delivery

/-!
A builder holds one root. Once the root is complete it stays as it is, whatever
the builder is told afterwards: what is told behind it is assembled beside it,
and refused when it would be complete. Only when the root is taken out or
cleared away is there room for another.
-/

namespace MsgPack

namespace Builder

variable {b c d : Builder} {e : Event} {es : List Event} {v : OwnedValue} {inner : Scopes}

/-- What is left of a builder, with or without success. -/
def left {α : Type} : EStateM.Result Error Builder α → Builder
  | .ok _ b => b
  | .error _ b => b

/-! ### Beside a root -/

/-- What a step makes of a builder without a root, `c`, tells what it does
beside a root: the same, unless it completes a root, which is refused. -/
inductive Beside (step : Step Unit) (b c : Builder) : Prop
  | inside (hroot : c.result = none)
      (h : ∀ v, step { b with result := some v } = .ok () { c with result := some v })
  | root (hroot : c.result.isSome = true)
      (h : ∀ v, step { b with result := some v } =
        .error (.writerState .rootComplete) { c with result := some v })

theorem place_beside (w : OwnedValue) (h : place w { b with result := none } = .ok () c) :
    Beside (place w) b c := by
  obtain ⟨frames, result, binary, scopes⟩ := b
  cases frames with
  | nil =>
      cases h
      exact .root rfl fun _ => rfl
  | cons top outer =>
      cases h
      exact .inside rfl fun _ => rfl

theorem finish_beside (h : finish { b with result := none } = .ok () c) : Beside finish b c := by
  obtain ⟨frames, result, binary, scopes⟩ := b
  cases frames with
  | nil =>
      cases h
      exact .inside rfl fun _ => rfl
  | cons top outer =>
      have hplace := place_beside (b := ⟨outer, result, binary, scopes⟩) top.value h
      cases hplace with
      | inside hroot hv => exact .inside hroot hv
      | root hroot hv => exact .root hroot hv

theorem assemble_beside (h : assemble e { b with result := none } = .ok () c) :
    Beside (assemble e) b c := by
  cases e with
  | endBinary =>
      have hplace := place_beside (b := { b with binary := [] }) (.binary b.binary) h
      cases hplace with
      | inside hroot hv => exact .inside hroot hv
      | root hroot hv => exact .root hroot hv
  | endArray => exact finish_beside h
  | endMap => exact finish_beside h
  | beginBinary size => cases h; exact .inside rfl fun _ => rfl
  | beginArray size => cases h; exact .inside rfl fun _ => rfl
  | beginMap size => cases h; exact .inside rfl fun _ => rfl
  | chunk bs => cases h; exact .inside rfl fun _ => rfl
  | key => cases h; exact .inside rfl fun _ => rfl
  | _ => exact place_beside _ h

/-! ### Builders between events -/

/-- But for its root, the builder is as some events make it of an empty one. -/
structure Formed (b : Builder) : Prop where
  growing : Growing { b with result := none }
  told : ∃ es, Writer.run es empty = .ok () { b with result := none }

theorem formed_ofRoot (v : OwnedValue) : Formed (ofRoot v) :=
  ⟨growing_empty, [], rfl⟩

/-- The events have made the builder: all that is in it, if it has no root yet,
and otherwise the root. -/
inductive Made (es : List Event) (b : Builder) : Prop
  | growing (hgrowing : Growing b) (hrun : Writer.run es empty = .ok () b)
  | complete {t : Tree} (ht : Tells es t) (hroot : b.result = some (t.value .exact))
      (hformed : Formed b)

theorem made_empty : Made [] empty := .growing growing_empty rfl

/-- An event that is refused leaves a builder as it is. Any other is accounted
for and assembled. -/
theorem step_cases (hs : Scopes.Sound b.scopes) (e : Event) :
    (∃ err, Builder.step e b = .error err b ∧ e.MayFail err.kind) ∨
      ∃ inner, e.refusal? = none ∧ e.account b.scopes = .ok () inner ∧
        Builder.step e b = assemble e { b with scopes := e.opens?.toList ++ inner } := by
  cases hrefusal : e.refusal? with
  | some err =>
      obtain ⟨err', hstep, hkind⟩ := step_refused hrefusal b
      exact .inl ⟨err', hstep, hkind ▸ Event.mayFail_of_refusal hrefusal⟩
  | none =>
      have hstep := step_eq hrefusal b
      cases haccount : e.account b.scopes with
      | error err inner =>
          obtain ⟨rfl, hkind⟩ := Scopes.account_error hs haccount
          rw [haccount] at hstep
          exact .inl ⟨err, hstep, .inl hkind⟩
      | ok u inner =>
          rw [haccount] at hstep
          exact .inr ⟨inner, rfl, rfl, hstep⟩

/-- An event that is refused leaves a builder as it is. Otherwise the builder
goes on growing, or its root is the tree that it has been told. -/
theorem Growing.step (hb : Growing b) (hrun : Writer.run es empty = .ok () b) (e : Event) :
    (∃ err, Builder.step e b = .error err b ∧ e.MayFail err.kind) ∨
      ∃ c, Builder.step e b = .ok () c ∧ Made (es ++ [e]) c := by
  obtain hrefused | ⟨inner, hrefusal, haccount, hstep⟩ := step_cases hb.sound e
  · exact .inl hrefused
  · obtain ⟨c, hassemble, hc⟩ := hb.assemble hrefusal haccount
    have hok : Builder.step e b = .ok () c := hstep.trans hassemble
    have htold : Writer.run (es ++ [e]) empty = .ok () c := run_concat hrun hok
    refine .inr ⟨c, hok, ?_⟩
    rcases hc with hc | hready
    · exact .growing hc htold
    · obtain ⟨hsome, hscopes⟩ := Bool.and_eq_true_iff.mp hready
      obtain ⟨hnil, -⟩ | ⟨t, ht, rfl⟩ :=
        closed_of_run (by decide : EncodePolicy.exact ≠ .aggressive) htold
          (List.isEmpty_iff.mp hscopes)
      · exact absurd hnil (by simp)
      · exact .complete ht rfl (formed_ofRoot _)

/-- Beside a root, an event that there is a place for goes on in a container that
stays open, or is refused for completing a second root. -/
theorem Formed.assemble (hb : Formed b) (hroot : b.result = some v)
    (hrefusal : e.refusal? = none) (haccount : e.account b.scopes = .ok () inner) :
    (∃ c, Builder.step e b = .ok () c ∧ Formed c ∧ c.result = some v ∧ c.scopes ≠ []) ∨
      Builder.step e b = .error (.writerState .rootComplete) (ofRoot v) := by
  obtain ⟨frames, result, binary, scopes⟩ := b
  obtain rfl : result = some v := hroot
  obtain ⟨es, hrun⟩ := hb.told
  have hstep := step_eq hrefusal ⟨frames, some v, binary, scopes⟩
  have hstep' := step_eq hrefusal ⟨frames, none, binary, scopes⟩
  obtain ⟨c, hassemble, hc⟩ := hb.growing.assemble hrefusal haccount
  simp only [haccount] at hstep hstep'
  have htold : Writer.run (es ++ [e]) empty = .ok () c := run_concat hrun (hstep'.trans hassemble)
  have hclosed := closed_of_run (by decide : EncodePolicy.exact ≠ .aggressive) htold
  have hbeside := assemble_beside
    (b := ⟨frames, some v, binary, e.opens?.toList ++ inner⟩) hassemble
  cases hbeside with
  | inside hnone hv =>
      obtain ⟨frames', result', binary', scopes'⟩ := c
      obtain rfl : result' = none := hnone
      have hgrowing := hc.resolve_right (by simp [ready])
      refine .inl ⟨_, hstep.trans (hv v), ⟨hgrowing, _, htold⟩, rfl, fun hscopes => ?_⟩
      obtain ⟨hnil, -⟩ | ⟨t, -, ht⟩ := hclosed hscopes
      · exact absurd hnil (by simp)
      · cases ht
  | root hsome hv =>
      have hready : c.ready = true := hc.resolve_left fun hgrowing => by
        rw [hgrowing.root] at hsome
        cases hsome
      obtain ⟨-, hscopes⟩ := Bool.and_eq_true_iff.mp hready
      obtain ⟨hnil, -⟩ | ⟨t, -, rfl⟩ := hclosed (List.isEmpty_iff.mp hscopes)
      · exact absurd hnil (by simp)
      · exact .inr (hstep.trans (hv v))

/-- Beside a root an event is refused as it would be without one, or meets what
the root makes of it. -/
theorem Formed.step (hb : Formed b) (hroot : b.result = some v) (e : Event) :
    (∃ err, Builder.step e b = .error err b ∧ e.MayFail err.kind) ∨
      (∃ c, Builder.step e b = .ok () c ∧ Formed c ∧ c.result = some v ∧ c.scopes ≠ []) ∨
      Builder.step e b = .error (.writerState .rootComplete) (ofRoot v) := by
  obtain hrefused | ⟨inner, hrefusal, haccount, -⟩ := step_cases (b := b) hb.growing.sound e
  · exact .inl hrefused
  · exact .inr (hb.assemble hroot hrefusal haccount)

/-! ### Calls -/

/-- A call on a builder. What one call tells is several events, up to the first
that is refused. -/
inductive Call where
  | tell (events : List Event)
  | clear
  | release

/-- What becomes of a builder by a call, whether or not the call fails. -/
def Call.on (b : Builder) : Call → Builder
  | tell events => (Writer.attempt events b).2
  | clear => left (Builder.clear b)
  | release => left (Builder.release b)

/-- What becomes of a builder by calls, with failures ignored. -/
def after (b : Builder) (calls : List Call) : Builder := calls.foldl Call.on b

/-- Whether a call takes the root out or clears it away. -/
def Call.resets (b : Builder) : Call → Bool
  | tell _ => false
  | clear => true
  | release => b.ready

/-- Whether no call takes the root out or clears it away. -/
def stays : Builder → List Call → Bool
  | _, [] => true
  | b, call :: calls => !call.resets b && stays (call.on b) calls

/-- The events that a builder takes on the way to its root. -/
def taken : List Event → Builder → List Event
  | [], _ => []
  | e :: es, b =>
    if b.result.isSome then []
    else
      match Builder.step e b with
      | .ok _ c => e :: taken es c
      | .error .. => []

/-- The events that have made a builder after one more call, `es` being those
before. -/
def Call.extend (es : List Event) (b : Builder) : Call → List Event
  | tell events => es ++ taken events b
  | clear => []
  | release => if b.ready then [] else es

/-- The events that make a builder by way of calls, with its root for an end. -/
def making (es : List Event) (b : Builder) : List Call → List Event
  | [] => es
  | call :: calls => making (call.extend es b) (call.on b) calls

theorem attempt_cons_of_ok (h : Builder.step e b = .ok () c) (es : List Event) :
    Writer.attempt (e :: es) b = Writer.attempt es c := by
  have hstep : Writer.step e b = .ok () c := h
  rw [Writer.attempt, Writer.run_cons, bind_of_ok hstep, Writer.attempt]

theorem attempt_cons_of_error {err : Error} (h : Builder.step e b = .error err c)
    (es : List Event) : Writer.attempt (e :: es) b = (some err, c) := by
  have hstep : Writer.step e b = .error err c := h
  rw [Writer.attempt, Writer.run_cons, bind_of_error hstep]

/-- Whatever a builder with a root is told, the root is what it was. -/
theorem Formed.attempt (hb : Formed b) (hroot : b.result = some v) (call : List Event) :
    Formed (Writer.attempt call b).2 ∧ (Writer.attempt call b).2.result = some v := by
  induction call generalizing b with
  | nil => exact ⟨hb, hroot⟩
  | cons e es ih =>
      obtain ⟨err, hstep, -⟩ | ⟨c, hstep, hc, hroot', -⟩ | hstep := hb.step hroot e
      · rw [attempt_cons_of_error hstep]
        exact ⟨hb, hroot⟩
      · rw [attempt_cons_of_ok hstep]
        exact ih hc hroot'
      · rw [attempt_cons_of_error hstep]
        exact ⟨formed_ofRoot v, rfl⟩

theorem taken_of_root (h : b.result = some v) (events : List Event) : taken events b = [] := by
  cases events with
  | nil => rfl
  | cons e es => simp [taken, h]

theorem Made.attempt (hb : Made es b) (call : List Event) :
    Made (es ++ taken call b) (Writer.attempt call b).2 := by
  induction call generalizing es b with
  | nil =>
      rw [taken, List.append_nil]
      exact hb
  | cons e call ih =>
      cases hb with
      | complete ht hroot hformed =>
          obtain ⟨hformed', hroot'⟩ := hformed.attempt hroot (e :: call)
          rw [taken_of_root hroot, List.append_nil]
          exact .complete ht hroot' hformed'
      | growing hgrowing hrun =>
          obtain ⟨err, hstep, -⟩ | ⟨c, hstep, hc⟩ := hgrowing.step hrun e
          · rw [attempt_cons_of_error hstep]
            simpa [taken, hgrowing.root, hstep] using Made.growing hgrowing hrun
          · rw [attempt_cons_of_ok hstep]
            simpa [taken, hgrowing.root, hstep] using ih hc

theorem clear_apply (b : Builder) : clear b = .ok () empty := rfl

theorem release_of_ready (hready : b.ready = true) (hroot : b.result = some v) :
    release b = .ok v empty := by
  unfold release
  rw [bind_of_ok (get_apply b)]
  simp only [hroot, hready]
  rfl

theorem release_of_not_ready (hready : b.ready = false) :
    release b = .error (.writerState (.incompleteValue b.scopes.length)) b := by
  unfold release
  rw [bind_of_ok (get_apply b)]
  simp only [hready]
  cases b.result <;> rfl

theorem Made.formed (hb : Made es b) (hroot : b.result = some v) : Formed b := by
  cases hb with
  | growing hgrowing hrun => exact nomatch hgrowing.root.symm.trans hroot
  | complete ht hroot' hformed => exact hformed

/-- A builder that is ready has nothing in it but its root. -/
theorem Made.eq_of_ready (hb : Made es b) (hready : b.ready = true) :
    ∃ t, Tells es t ∧ b = ofRoot (t.value .exact) := by
  obtain ⟨hsome, hscopes⟩ := Bool.and_eq_true_iff.mp hready
  cases hb with
  | growing hgrowing hrun =>
      rw [hgrowing.root] at hsome
      cases hsome
  | @complete t ht hroot hformed =>
      obtain ⟨frames, result, binary, scopes⟩ := b
      obtain rfl : scopes = [] := List.isEmpty_iff.mp hscopes
      obtain rfl : result = some (t.value .exact) := hroot
      obtain ⟨es', hrun⟩ := hformed.told
      obtain ⟨-, heq⟩ | ⟨t', -, heq⟩ :=
        closed_of_run (by decide : EncodePolicy.exact ≠ .aggressive) hrun rfl
      · cases heq
        exact ⟨t, ht, rfl⟩
      · cases heq

theorem Made.on (hb : Made es b) (call : Call) : Made (call.extend es b) (call.on b) := by
  cases call with
  | tell events => exact hb.attempt events
  | clear => exact made_empty
  | release =>
      cases hready : b.ready with
      | true =>
          obtain ⟨t, -, rfl⟩ := hb.eq_of_ready hready
          exact made_empty
      | false =>
          rw [Call.on, release_of_not_ready hready, Call.extend, hready]
          exact hb

theorem Made.after (hb : Made es b) (calls : List Call) :
    Made (making es b calls) (b.after calls) := by
  induction calls generalizing es b with
  | nil => exact hb
  | cons call calls ih => exact ih (hb.on call)

/-- No call alters the root, unless it takes the root out or clears it away. -/
theorem Formed.on (hb : Formed b) (hroot : b.result = some v) {call : Call}
    (hcall : call.resets b = false) : Formed (call.on b) ∧ (call.on b).result = some v := by
  cases call with
  | tell events => exact hb.attempt hroot events
  | clear => cases hcall
  | release =>
      rw [Call.on, release_of_not_ready hcall]
      exact ⟨hb, hroot⟩

theorem Formed.after (hb : Formed b) (hroot : b.result = some v) {calls : List Call}
    (hcalls : stays b calls = true) :
    Formed (b.after calls) ∧ (b.after calls).result = some v := by
  induction calls generalizing b with
  | nil => exact ⟨hb, hroot⟩
  | cons call calls ih =>
      rw [stays, Bool.and_eq_true, Bool.not_eq_true'] at hcalls
      obtain ⟨hb', hroot'⟩ := hb.on hroot hcalls.1
      exact ih hb' hroot' hcalls.2

/-! ### Second roots -/

/-- Events that would leave nothing open are refused beside a root, the last of
them if no other one is. -/
theorem Formed.run (hb : Formed b) (hroot : b.result = some v) (hne : es ≠ [])
    (hes : ∀ e ∈ es, e.refusal? = none) (htell : Scopes.tell es b.scopes = .ok () []) :
    Writer.run es b = .error (.writerState .rootComplete) (ofRoot v) := by
  induction es generalizing b with
  | nil => exact absurd rfl hne
  | cons e es ih =>
      obtain ⟨hrefusal, hrest⟩ := List.forall_mem_cons.mp hes
      obtain ⟨inner, haccount, -⟩ := Scopes.tell_cons_ok_iff.mp htell
      rw [Writer.run_cons]
      obtain ⟨c, hstep, hc, hroot', hopen⟩ | hstep := hb.assemble hroot hrefusal haccount
      · obtain ⟨-, hact, -⟩ := step_ok hstep
        rw [Scopes.tell_cons, bind_of_ok hact] at htell
        -- a container is still open, so there is more to come
        have hne' : es ≠ [] := by
          rintro rfl
          exact hopen (EStateM.Result.ok.inj htell).2
        exact (bind_of_ok hstep).trans (ih hc hroot' hne' hrest htell)
      · exact bind_of_error hstep

/-- Whatever tree it is, another root is refused when it is complete, if not
before, and nothing is left of it. -/
theorem Formed.second (hb : Formed b) (hroot : b.result = some v) (hscopes : b.scopes = [])
    {t : Tree} (ht : Tells es t) :
    Writer.run es b = .error (.writerState .rootComplete) (ofRoot v) := by
  have htell : Scopes.tell es b.scopes = .ok () [] := by
    rw [hscopes]
    exact ht.tell rfl
  exact hb.run hroot ht.ne_nil ht.unrefused htell

/-- A builder holds one root, and never alters it. Let any calls be made on an
empty one, with failures ignored. When the builder is ready, it releases the
value of the tree that the events tell which it has taken since it was last
reset, as far as its root. From then on, until the root is taken out or cleared
away, no call changes the root, and whenever the builder is ready again it
releases the same. Any event is then refused as it would be without a root, or
taken inside a container that stays open, or refused because the root is
complete, with nothing but the root left behind; the last is what happens to any
second root, whatever tree it is. Releasing and clearing leave an empty
builder. -/
theorem holds_one_root (calls : List Call) :
    let b := empty.after calls
    (b.ready = true →
      ∃ t, Tells (making [] empty calls) t ∧ release b = .ok (t.value .exact) empty) ∧
    (∀ v, b.result = some v →
      (∀ more, stays b more = true → (b.after more).result = some v ∧
        ((b.after more).ready = true → release (b.after more) = .ok v empty)) ∧
      (∀ e, (∃ err, Builder.step e b = .error err b ∧ e.MayFail err.kind) ∨
        (∃ c, Builder.step e b = .ok () c ∧ c.result = some v ∧ c.scopes ≠ []) ∨
        Builder.step e b = .error (.writerState .rootComplete) (ofRoot v)) ∧
      (b.ready = true → b = ofRoot v ∧
        ∀ es t, Tells es t → Writer.run es b = .error (.writerState .rootComplete) b)) ∧
    clear b = .ok () empty ∧ ∀ v c, release b = .ok v c → c = empty := by
  intro b
  have hmade : Made (making [] empty calls) b := made_empty.after calls
  refine ⟨fun hready => ?_, fun v hroot => ?_, clear_apply b, fun v c hrelease => ?_⟩
  · obtain ⟨t, ht, hb⟩ := hmade.eq_of_ready hready
    exact ⟨t, ht, release_of_ready hready (congrArg result hb)⟩
  · have hformed := hmade.formed hroot
    refine ⟨fun more hstays => ?_, fun e => ?_, fun hready => ?_⟩
    · obtain ⟨-, hroot'⟩ := hformed.after hroot hstays
      exact ⟨hroot', fun hready => release_of_ready hready hroot'⟩
    · exact (hformed.step hroot e).imp_right <| Or.imp_left fun h =>
        h.imp fun c hc => ⟨hc.1, hc.2.2⟩
    · obtain ⟨t, -, hb⟩ := hmade.eq_of_ready hready
      have heq : b = ofRoot v := by
        obtain rfl := Option.some.inj ((congrArg result hb).symm.trans hroot)
        exact hb
      have hscopes : b.scopes = [] := congrArg Builder.scopes heq
      exact ⟨heq, fun es t ht => (hformed.second hroot hscopes ht).trans (congrArg _ heq.symm)⟩
  · cases hready : b.ready with
    | true =>
        obtain ⟨t, -, hb⟩ := hmade.eq_of_ready hready
        rw [release_of_ready hready (congrArg result hb)] at hrelease
        exact (EStateM.Result.ok.inj hrelease).2.symm
    | false =>
        rw [release_of_not_ready hready] at hrelease
        cases hrelease

/-- An array of nil, begun by one call and ended by another, with a release tried
too early between them; and then a boolean, a binary and a map of no known
length, all of them refused. -/
theorem holds_one_root_array :
    let b := empty.after [.tell [.beginArray (some 1), .nil], .release, .tell [.endArray]]
    let more : List Call := [.tell [.bool true], .tell (Event.binary [7]), .tell [.beginMap none]]
    b.ready = true ∧ stays b more = true ∧
      release (b.after more) = .ok (.array [.nil]) empty ∧
      Writer.run (Event.binary [7]) b = .error (.writerState .rootComplete) b ∧
      Tells (making [] empty [.tell [.beginArray (some 1), .nil], .release, .tell [.endArray]])
        (.array [.nil]) := by
  intro b more
  have hroot : b.result = some (.array [.nil]) := rfl
  have hready : b.ready = true := rfl
  have hstays : stays b more = true := rfl
  obtain ⟨-, hrooted, -⟩ :=
    holds_one_root [.tell [.beginArray (some 1), .nil], .release, .tell [.endArray]]
  obtain ⟨hmore, -, hsecond⟩ := hrooted _ hroot
  have hbinary : Tells (Event.binary [7]) (.binary [7]) := .binary [[7]]
  exact ⟨hready, hstays, (hmore more hstays).2 rfl, (hsecond hready).2 _ _ hbinary,
    .array (.cons .nil .nil)⟩

end Builder

end MsgPack
