import MsgPack.Proofs.Cursor.Changes

/-!
The cursors that come of calls, in whatever order they are made and whether or
not they succeed. What survives each change that a call can make to the open
scopes holds of all of them.
-/

namespace MsgPack.Cursor

variable {α : Type} {p q : Cursor → Prop}

/-! ### Calls in any order -/

/-- What can be called on a cursor, apart from what only looks. -/
inductive Move where
  | enter (kind : Container)
  /-- Closes the scope of a number, and those inside it. -/
  | leave (kind : Container) (number : Int)
  | key
  | skip
  | variant
  | endVariant (shape : VariantShape)
  /-- Reads an object over another one, from whatever it takes. -/
  | read (s : Schema) (x : s.Val)

def Move.step : Move → Step Unit
  | enter kind => discard (beginScope kind)
  | leave kind number => endScope kind number
  | key => announceKey
  | skip => Cursor.skip
  | variant => discard beginVariant
  | endVariant shape => Cursor.endVariant shape
  | read s x => discard (s.restore x)

theorem Kept.move (h : Kept p q) (m : Move) : Keeps p q m.step := by
  cases m with
  | enter kind => exact (h.enter kind).bind fun _ => .pure ()
  | leave kind number => exact h.leave kind number
  | key => exact h.key
  | skip => exact h.skip
  | variant =>
      have hbuilt : Built False 1 beginVariant := .beginVariant
      exact (hbuilt.keeps h).bind fun _ => .pure ()
  | endVariant shape =>
      have hbuilt : Built False 0 (Cursor.endVariant shape) := .endVariant shape
      exact hbuilt.keeps h
  | read s x => exact (s.keeps_restore h x).bind fun _ => .pure ()

/-- The cursors that come of calls. Between calls a cursor may be given other
limits, and may forget its scopes. -/
inductive Reachable : Cursor → Prop
  | fresh (policy : DecodePolicy) (maxDepth : Nat) (strict : Bool) (kind : SourceKind)
      (input : Bytes) :
      Reachable { policy, maxDepth, strict, source := .ofBytes kind input }
  | done {c c' : Cursor} (h : Reachable c) (m : Move) (hstep : m.step c = .ok () c') :
      Reachable c'
  | failed {c c' : Cursor} {e : Error} (h : Reachable c) (m : Move)
      (hstep : m.step c = .error e c') : Reachable c'
  | configured {c : Cursor} (h : Reachable c) (maxDepth : Nat) (strict : Bool) :
      Reachable { c with maxDepth, strict }
  | cleared {c : Cursor} (h : Reachable c) : Reachable c.clear

/-! ### What changes keep -/

/-- What holds of a cursor survives each change that a step makes: of the
source, of the innermost scope, and of the scopes that are open. -/
structure Stable (p : Cursor → Prop) : Prop where
  source : ∀ (c : Cursor) (s : Source), p c → p { c with source := s }
  altered : ∀ (c : Cursor) (f g : Frame) (outer : List Frame), p c → c.frames = f :: outer →
    g.id = f.id → (f.Settled → g.Settled) → p { c with frames := g :: outer }
  opened : ∀ (c : Cursor) (kind : Container) (n : Nat), p c →
    p { c with frames := .opened kind (c.lastId + 1) n :: c.frames, lastId := c.lastId + 1 }
  popped : ∀ c : Cursor, p c → p { c with frames := c.frames.tail }

/-- What survives changes of which less is known survives each of them. -/
theorem Stable.closed (h : Stable p) : Closed p := by
  intro c d hchange hc
  cases hchange with
  | source s => exact h.source c s hc
  | altered hframes halters => exact h.altered c _ _ _ hc hframes halters.id halters.settled
  | opened kind n _ => exact h.opened c kind n hc
  | popped => exact h.popped c hc

/-- What changes of the scopes do not break holds of every cursor that comes of
calls, if limits do not matter to it and nothing is asked of a cursor without
scopes. -/
theorem Reachable.of_stable {c : Cursor} (h : Reachable c) (hp : Stable p)
    (hfresh : ∀ policy maxDepth strict kind input,
      p { policy, maxDepth, strict, source := .ofBytes kind input })
    (hconfigured : ∀ (c : Cursor) (maxDepth : Nat) (strict : Bool), p c →
      p { c with maxDepth, strict })
    (hcleared : ∀ c : Cursor, p c.clear) : p c := by
  induction h with
  | fresh policy maxDepth strict kind input => exact hfresh policy maxDepth strict kind input
  | done _ m hstep ih => exact (hp.closed.kept.move m).ok ih hstep
  | failed _ m hstep ih => exact (hp.closed.kept.move m).error ih hstep
  | configured _ maxDepth strict ih => exact hconfigured _ maxDepth strict ih
  | cleared _ ih => exact hcleared _

/-! ### Scopes of reachable cursors -/

/-- Announcements are of keys that come next, and the scopes have got the
numbers that were given. -/
structure Orderly (c : Cursor) : Prop where
  settled : ∀ f ∈ c.frames, f.Settled
  numbered : ∀ f ∈ c.frames, f.id ≤ c.lastId

theorem stable_orderly : Stable Orderly where
  source c s h := ⟨h.settled, h.numbered⟩
  altered c f g outer h hframes hid hg := by
    have hsettled := h.settled
    have hnumbered := h.numbered
    rw [hframes] at hsettled hnumbered
    rw [List.forall_mem_cons] at hsettled hnumbered
    exact ⟨List.forall_mem_cons.mpr ⟨hg hsettled.1, hsettled.2⟩,
      List.forall_mem_cons.mpr ⟨hid ▸ hnumbered.1, hnumbered.2⟩⟩
  opened c kind n h := by
    refine ⟨List.forall_mem_cons.mpr ⟨fun hpending => Bool.noConfusion hpending, h.settled⟩,
      List.forall_mem_cons.mpr ⟨Nat.le_refl _, fun f hf => ?_⟩⟩
    exact Nat.le_succ_of_le (h.numbered f hf)
  popped c h := ⟨fun f hf => h.settled f (List.mem_of_mem_tail hf),
    fun f hf => h.numbered f (List.mem_of_mem_tail hf)⟩

theorem Reachable.orderly {c : Cursor} (h : Reachable c) : c.Orderly :=
  h.of_stable stable_orderly (fun _ _ _ _ _ => ⟨List.forall_mem_nil _, List.forall_mem_nil _⟩)
    (fun _ _ _ hc => ⟨hc.settled, hc.numbered⟩)
    fun _ => ⟨List.forall_mem_nil _, List.forall_mem_nil _⟩

theorem Orderly.settledIn {c : Cursor} (h : c.Orderly) : SettledIn c.frames :=
  settledIn_of_forall h.settled

/-- Numbers are given in order, and an element that has been passed leaves them
as they are. -/
theorem Orderly.lt_of_passed {c : Cursor} (h : c.Orderly) :
    ∀ f ∈ c.frames.modifyHead Frame.passed, f.id < c.lastId + 1 := by
  have hnumbered := h.numbered
  cases hframes : c.frames with
  | nil => exact List.forall_mem_nil _
  | cons g outer =>
      rw [hframes, List.forall_mem_cons] at hnumbered
      exact List.forall_mem_cons.mpr ⟨Nat.lt_succ_of_le hnumbered.1,
        fun f hf => Nat.lt_succ_of_le (hnumbered.2 f hf)⟩

end MsgPack.Cursor
