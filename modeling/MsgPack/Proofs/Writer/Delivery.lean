import MsgPack.Proofs.Writer.Output

/-!
What a serializer hands over. As long as the scopes have a place for every
event, a run of events is one writing step, which writes them one after another;
the serializer counts what that step tells and stops where it fails.
-/

namespace MsgPack

namespace Event

/-- Writes events one after another. -/
def putAll (policy : EncodePolicy) : List Event → Put Nat
  | [] => pure 0
  | e :: es => do
    let m ← e.put policy
    let n ← putAll policy es
    return m + n

variable {policy : EncodePolicy}

theorem putAll_singleton (e : Event) : putAll policy [e] = e.put policy := by
  simp [putAll]

theorem putAll_append (es es' : List Event) :
    putAll policy (es ++ es') = do
      let m ← putAll policy es
      let n ← putAll policy es'
      return m + n := by
  induction es with
  | nil => simp only [List.nil_append, putAll, pure_bind, Nat.zero_add, bind_pure]
  | cons e es ih =>
      simp only [List.cons_append, putAll, ih, bind_assoc, pure_bind, Nat.add_assoc]

/-- Between its header and its end, a container is what it contains. -/
theorem putAll_container (first : Event) {last : Event} (es : List Event)
    (hlast : last.put policy = pure 0) :
    putAll policy (first :: (es ++ [last])) = do
      let header ← first.put policy
      let n ← putAll policy es
      return header + n := by
  simp [putAll, putAll_append, hlast]

/-- A binary in one piece is the entity. -/
theorem putAll_binary (bs : Bytes) : putAll policy (Event.binary bs) = Put.binary bs := by
  have hend : Event.endBinary.put policy = pure 0 := rfl
  have h : putAll policy (Event.binary bs) = _ :=
    putAll_container (.beginBinary (some bs.length)) [.chunk bs] hend
  rw [h, putAll_singleton]
  simp [put, Put.binary]

/-- A list behind a header, with the count carried along. -/
theorem putAll_flatMap {α : Type} {f : Nat → α → Put Nat} {events : α → List Event}
    (hf : ∀ n x, f n x = do return n + (← putAll policy (events x))) (xs : List α) (n : Nat) :
    (do return n + (← putAll policy (xs.flatMap events))) = xs.foldlM f n := by
  induction xs generalizing n with
  | nil => simp only [List.flatMap_nil, putAll, pure_bind, Nat.add_zero, List.foldlM_nil]
  | cons x xs ih =>
      simp only [List.flatMap_cons, putAll_append, List.foldlM_cons, hf, bind_assoc, pure_bind,
        ← ih, Nat.add_assoc]

theorem writes_putAll {es : List Event} (hes : ∀ e ∈ es, e.Fits) :
    Put.Writes (putAll policy es) (es.flatMap (bytes policy)) := by
  induction es with
  | nil => exact .nothing
  | cons e es ih =>
      rw [List.forall_mem_cons] at hes
      exact (writes_put hes.1).next (ih hes.2)

end Event

mutual

/-- No event that tells of a tree is refused for itself. -/
theorem Tells.unrefused {es : List Event} {t : Tree} (h : Tells es t) :
    ∀ e ∈ es, e.refusal? = none := by
  cases h with
  | char hcp =>
      refine List.forall_mem_singleton.mpr ?_
      simp [Event.refusal?, hcp]
  | binary chunks =>
      simp only [List.forall_mem_cons, List.forall_mem_append, List.forall_mem_map]
      exact ⟨rfl, fun _ _ => rfl, rfl, List.forall_mem_nil _⟩
  | array hs =>
      simp only [List.forall_mem_cons, List.forall_mem_append]
      exact ⟨rfl, TellsElems.unrefused hs, rfl, List.forall_mem_nil _⟩
  | map hs =>
      simp only [List.forall_mem_cons, List.forall_mem_append]
      exact ⟨rfl, TellsEntries.unrefused hs, rfl, List.forall_mem_nil _⟩
  | _ => exact List.forall_mem_singleton.mpr rfl
termination_by sizeOf t

theorem TellsElems.unrefused {es : List Event} {ts : List Tree} (h : TellsElems es ts) :
    ∀ e ∈ es, e.refusal? = none := by
  cases h with
  | nil => exact List.forall_mem_nil _
  | cons ht hs =>
      exact List.forall_mem_append.mpr ⟨Tells.unrefused ht, TellsElems.unrefused hs⟩
termination_by sizeOf ts

theorem TellsEntries.unrefused {es : List Event} {entries : List (Tree × Tree)}
    (h : TellsEntries es entries) : ∀ e ∈ es, e.refusal? = none := by
  cases h with
  | nil => exact List.forall_mem_nil _
  | cons hk hv hs =>
      simp only [List.forall_mem_cons, List.forall_mem_append]
      exact ⟨rfl, Tells.unrefused hk, Tells.unrefused hv, TellsEntries.unrefused hs⟩
termination_by sizeOf entries

end

namespace Serializer

/-- What comes of a run: the count of bytes, or the failure, and the sink. -/
def delivered : EStateM.Result Error Serializer Unit → EStateM.Result Error Sink Nat
  | .ok _ s => .ok s.written s.sink
  | .error e s => .error e s.sink

/-- Events that the scopes have a place for are written one after another. -/
theorem delivered_run {es : List Event} {s : Serializer} {scopes : Scopes}
    (hes : ∀ e ∈ es, e.refusal? = none) (htell : Scopes.tell es s.scopes = .ok () scopes) :
    delivered (Writer.run es s) =
      (do return s.written + (← Event.putAll s.policy es) : Put Nat) s.sink := by
  induction es generalizing s with
  | nil => rfl
  | cons e es ih =>
      rw [List.forall_mem_cons] at hes
      obtain ⟨inner, haccount, hrest⟩ := Scopes.tell_cons_ok_iff.mp htell
      have hstep : (Writer.step e : EStateM Error Serializer Unit) s = stepParts e s := step_eq e s
      unfold stepParts at hstep
      rw [hes.1, haccount] at hstep
      rw [Writer.run_cons, Event.putAll]
      cases hput : e.put s.policy s.sink with
      | error err sink =>
          rw [hput] at hstep
          rw [bind_of_error hstep, bind_of_error (bind_of_error hput)]
          rfl
      | ok n sink =>
          rw [hput] at hstep
          rw [bind_of_ok hstep]
          refine (ih hes.2 hrest).trans ?_
          rw [bind_assoc, bind_of_ok hput]
          simp [Nat.add_assoc]

end Serializer

end MsgPack
