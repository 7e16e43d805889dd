import MsgPack.Proofs.Step
import MsgPack.Proofs.Wire.Runs
import MsgPack.Writer.Serializer

/-!
The serializer's step in its parts: what it refuses unseen, what it does to the
open scopes, what it hands to the sink, and which scope it opens. The parts
come in this order for every event, which is all that later proofs need to know
about the step.
-/

namespace MsgPack

namespace Event

/-- Why an event is refused, whatever the state. -/
def refusal? : Event → Option Error
  | .char cp => if (Utf8.encode? cp).isSome then none else some (.invalidFormat (.codePoint cp))
  | .beginBinary none => some (.lengthUnknown (.elements .binary))
  | .beginArray none => some (.lengthUnknown (.elements .array))
  | .beginMap none => some (.lengthUnknown (.elements .map))
  | _ => none

/-- How an event is accounted for in the scopes that are open. -/
def account : Event → Scopes.Step Unit
  | .chunk bs => Scopes.appendBinary bs.length
  | .endBinary => Scopes.leave .binary
  | .endArray => Scopes.leave .array
  | .endMap => Scopes.leave .map
  | .key => Scopes.announceKey
  | _ => Scopes.nextElement

/-- What an event writes. -/
def put (policy : EncodePolicy) : Event → Put Nat
  | .nil => Put.nil
  | .bool b => Put.bool b
  | .int t i => policy.int t i
  | .float p x => policy.float p x
  | .char cp => (Utf8.encode? cp).elim (pure 0) Put.text
  | .text bs => Put.text bs
  | .extension e => Put.extension e
  | .beginBinary size => size.elim (pure 0) Put.binaryHeader
  | .chunk bs => do
    Put.run bs
    return bs.length
  | .beginArray elems => elems.elim (pure 0) Put.arrayHeader
  | .beginMap entries => entries.elim (pure 0) Put.mapHeader
  | .endBinary | .endArray | .endMap | .key => pure 0

/-- The scope that an event opens. -/
def opens? : Event → Option Scope
  | .beginBinary size => size.map fun n => { kind := .binary, declared := n }
  | .beginArray elems => elems.map fun n => { kind := .array, declared := n }
  | .beginMap entries => entries.map fun n => { kind := .map, declared := n }
  | _ => none

/-- The whole of what an event does to the scopes. -/
def act (e : Event) : Scopes.Step Unit := do
  e.account
  modify (e.opens?.toList ++ ·)

end Event

theorem Writer.run_cons {ω : Type} [Writer ω] (e : Event) (es : List Event) :
    (run (e :: es) : EStateM Error ω Unit) = step e >>= fun _ => run es := by
  simp [run]

theorem Writer.run_append {ω : Type} [Writer ω] (es es' : List Event) :
    (run (es ++ es') : EStateM Error ω Unit) = run es >>= fun _ => run es' := by
  simp [run, List.forM_append]

namespace Serializer

/-- The step, part by part. -/
def stepParts (e : Event) (s : Serializer) : EStateM.Result Error Serializer Unit :=
  match e.refusal? with
  | some err => .error err s
  | none =>
    match e.account s.scopes with
    | .error err scopes => .error err { s with scopes }
    | .ok _ scopes =>
      match e.put s.policy s.sink with
      | .error err sink => .error err { s with scopes, sink }
      | .ok n sink =>
        .ok () { s with scopes := e.opens?.toList ++ scopes, sink, written := s.written + n }

theorem onScopes_apply {α : Type} (step : Scopes.Step α) (s : Serializer) :
    onScopes step s =
      match step s.scopes with
      | .error err scopes => .error err { s with scopes }
      | .ok a scopes => .ok a { s with scopes } := by
  obtain ⟨policy, sink, scopes, written⟩ := s
  rw [onScopes]
  dsimp only
  cases step scopes <;> rfl

theorem emit_apply (put : Put Nat) (s : Serializer) :
    emit put s =
      match put s.sink with
      | .error err sink => .error err { s with sink }
      | .ok n sink => .ok () { s with sink, written := s.written + n } := by
  obtain ⟨policy, sink, scopes, written⟩ := s
  rw [emit]
  rw [bind_apply]
  rw [onSink]
  dsimp only
  cases put sink <;> rfl

theorem element_apply (put : Put Nat) (s : Serializer) :
    element put s =
      match Scopes.nextElement s.scopes with
      | .error err scopes => .error err { s with scopes }
      | .ok _ scopes =>
        match put s.sink with
        | .error err sink => .error err { s with scopes, sink }
        | .ok n sink => .ok () { s with scopes, sink, written := s.written + n } := by
  rw [element]
  rw [bind_apply, onScopes_apply]
  cases Scopes.nextElement s.scopes with
  | error err scopes => rfl
  | ok u scopes => exact emit_apply put { s with scopes }

theorem openScope_apply (kind : ScopeKind) (what : Sized) (n : Nat) (header : Nat → Put Nat)
    (s : Serializer) :
    openScope kind what (some n) header s =
      match Scopes.nextElement s.scopes with
      | .error err scopes => .error err { s with scopes }
      | .ok _ scopes =>
        match header n s.sink with
        | .error err sink => .error err { s with scopes, sink }
        | .ok k sink => .ok () { s with
            scopes := { kind, declared := n } :: scopes, sink, written := s.written + k } := by
  unfold openScope
  dsimp only
  rw [bind_apply, element_apply]
  cases Scopes.nextElement s.scopes with
  | error err scopes => rfl
  | ok u scopes =>
      dsimp only
      cases header n s.sink with
      | error err sink => rfl
      | ok k sink => exact onScopes_apply ..

/-- A step that writes nothing, as one that writes no bytes. -/
theorem onScopes_silent (step : Scopes.Step Unit) (s : Serializer) :
    onScopes step s =
      match step s.scopes with
      | .error err scopes => .error err { s with scopes }
      | .ok _ scopes =>
        match (pure 0 : Put Nat) s.sink with
        | .error err sink => .error err { s with scopes, sink }
        | .ok n sink =>
          .ok () { s with scopes := [] ++ scopes, sink, written := s.written + n } := by
  rw [onScopes_apply]
  cases step s.scopes <;> rfl

theorem step_eq (e : Event) (s : Serializer) : step e s = stepParts e s := by
  unfold step stepParts
  rw [bind_of_ok (get_apply s)]
  -- elements, containers, and events that write nothing: three lemmas for fifteen events
  cases e with
  | nil => exact element_apply ..
  | bool b => exact element_apply ..
  | int t i => exact element_apply ..
  | float p x => exact element_apply ..
  | char cp =>
      simp only [Event.refusal?, Event.put]
      cases Utf8.encode? cp with
      | none => rfl
      | some bs => exact element_apply ..
  | text bs => exact element_apply ..
  | extension ext => exact element_apply ..
  | beginBinary size =>
      cases size with
      | none => rfl
      | some n => exact openScope_apply ..
  | beginArray elems =>
      cases elems with
      | none => rfl
      | some n => exact openScope_apply ..
  | beginMap entries =>
      cases entries with
      | none => rfl
      | some n => exact openScope_apply ..
  | chunk bs =>
      dsimp only
      rw [bind_apply, onScopes_apply]
      simp only [Event.refusal?, Event.account]
      cases Scopes.appendBinary bs.length s.scopes with
      | error err scopes => rfl
      | ok u scopes => exact emit_apply _ { s with scopes }
  | endBinary => exact onScopes_silent ..
  | endArray => exact onScopes_silent ..
  | endMap => exact onScopes_silent ..
  | key => exact onScopes_silent ..

end Serializer

end MsgPack
