import MsgPack.Proofs.Cursor.Unwinding

/-!
Runs of single acts, in any order, with failing ones among them: what a run
leads to, the ways that its acts go, and what the open scopes keep to all along.
-/

namespace MsgPack

theorem Frame.settled_iff {f : Frame} :
    f.Settled ↔ (f.keyPending = true → f.kind = .map ∧ f.remaining % 2 = 0) := by
  simp [Frame.Settled, Frame.atKey]

namespace Cursor

/-! ### Runs -/

/-- What can be done with a cursor in one call, apart from looking. -/
inductive Act : Type 1 where
  | enter (kind : Container)
  /-- Closes the scope of a number, and those inside it. -/
  | leave (kind : Container) (number : Int)
  | key
  | skip
  /-- Reads an element that is not a container, in whatever way. -/
  | leaf {α : Type} (g : Get α)

def Act.step : Act → Step Unit
  | enter kind => discard (beginScope kind)
  | leave kind number => endScope kind number
  | key => announceKey
  | skip => Cursor.skip
  | leaf g => discard (Cursor.leaf g)

/-- Where the act leads, with or without success. -/
def Act.on (act : Act) (c : Cursor) : Cursor :=
  match act.step c with
  | .ok _ d => d
  | .error _ d => d

/-- What can be asked of a cursor. -/
inductive Request : Type 1 where
  | act (act : Act)
  | configure (maxDepth : Nat) (strict : Bool)
  | clear

def Request.on : Request → Cursor → Cursor
  | act a, c => a.on c
  | configure maxDepth strict, c => { c with maxDepth, strict }
  | clear, c => c.clear

/-- The cursor after one request upon the other. An act that fails does not end
the run. -/
def after (c : Cursor) (requests : List Request) : Cursor :=
  requests.foldl (fun c request => request.on c) c

variable {p : Cursor → Prop} {c d : Cursor} {trail : List Cursor} {requests : List Request}

theorem Closed.act (hp : Closed p) (act : Act) (hc : p c) : p (act.on c) := by
  have hkeeps : Keeps p p act.step := by
    cases act with
    | enter kind => exact (hp.beginScope kind).bind fun _ => .pure ()
    | leave kind number => exact hp.kept.leave kind number
    | key => exact hp.announceKey
    | skip => exact hp.kept.skip
    | leaf g => exact (hp.leaf g).bind fun _ => .pure ()
  rw [Act.on]
  cases hstep : act.step c with
  | ok _ d => exact hkeeps.ok hc hstep
  | error _ d => exact hkeeps.error hc hstep

/-- What changes keep holds after any run, if the other requests in it keep it
too. -/
theorem Closed.after (hp : Closed p)
    (hconfigure : ∀ c maxDepth strict, .configure maxDepth strict ∈ requests → p c →
      p { c with maxDepth, strict })
    (hclear : .clear ∈ requests → ∀ c : Cursor, p c → p c.clear) (hc : p c) :
    p (c.after requests) := by
  induction requests generalizing c with
  | nil => exact hc
  | cons request requests ih =>
      have hon : p (request.on c) := by
        cases request with
        | act act => exact hp.act act hc
        | configure maxDepth strict => exact hconfigure c maxDepth strict (by simp) hc
        | clear => exact hclear (by simp) c hc
      apply ih _ _ hon
      · intro c maxDepth strict hmem
        exact hconfigure c maxDepth strict (List.mem_cons_of_mem _ hmem)
      · intro hmem
        exact hclear (List.mem_cons_of_mem _ hmem)

/-- An act goes a way, and what changes keep holds all along it. -/
theorem Closed.way_act (hp : Closed p) (hc : p c) (act : Act) :
    ∃ trail, Way c trail (act.on c) ∧ ∀ d ∈ trail, p d :=
  (hp.way c).act act ⟨[c], .rest, by simpa using hc⟩

/-- A run in which the scopes are not forgotten goes a way. -/
theorem way_after (c : Cursor) (hclear : .clear ∉ requests) :
    ∃ trail, Way c trail (c.after requests) := by
  have hp : Closed fun d => ∃ trail, Way c trail d := by
    rintro d e hchange ⟨trail, hway⟩
    exact ⟨e :: trail, hway.change hchange⟩
  apply hp.after _ (fun hmem => absurd hmem hclear) ⟨[c], .rest⟩
  rintro d maxDepth strict - ⟨trail, hway⟩
  exact ⟨_, hway.configured maxDepth strict⟩

/-! ### Scopes -/

theorem Ranked.way (h : c.Ranked) (hway : Way c trail d) : d.Ranked :=
  (hway.all stable_ranked.closed (fun _ _ _ hc => ⟨hc.bounded, hc.descending⟩) h).1

/-- What the open scopes keep to: their numbers are positive, have been given,
and rise from the outermost scope inward, and keys are announced where they come
next. -/
structure Regular (c : Cursor) : Prop extends Ranked c where
  positive : ∀ f ∈ c.frames, 0 < f.id
  announced : ∀ f ∈ c.frames, f.keyPending = true → f.kind = .map ∧ f.remaining % 2 = 0

theorem Regular.settled (h : c.Regular) : ∀ f ∈ c.frames, f.Settled :=
  fun f hf => Frame.settled_iff.mpr (h.announced f hf)

/-- Without scopes there is nothing to keep to. -/
theorem regular_of_nil (h : c.frames = []) : c.Regular := by
  refine ⟨⟨?_, ?_⟩, ?_, ?_⟩ <;> simp [h]

theorem closed_regular : Closed Regular := by
  intro c d hchange h
  have hranked : d.Ranked := stable_ranked.closed c d hchange h.toRanked
  refine ⟨hranked, ?_, ?_⟩
  · have hpositive := h.positive
    cases hchange with
    | source s => exact hpositive
    | altered hframes halters =>
        rw [hframes] at hpositive
        simpa [halters.id] using hpositive
    | opened kind n hroom => simpa [Frame.opened] using hpositive
    | popped => exact fun f hf => hpositive f (List.mem_of_mem_tail hf)
  · have hsettled := h.settled
    intro f hf
    rw [← Frame.settled_iff]
    revert f
    cases hchange with
    | source s => exact hsettled
    | altered hframes halters =>
        rw [hframes, List.forall_mem_cons] at hsettled
        exact List.forall_mem_cons.mpr ⟨halters.settled hsettled.1, hsettled.2⟩
    | opened kind n hroom =>
        exact List.forall_mem_cons.mpr ⟨Frame.settled_opened kind _ n, hsettled⟩
    | popped => exact fun f hf => hsettled f (List.mem_of_mem_tail hf)

/-- Other limits do not matter to numbers and announcements. -/
theorem Regular.configured (h : c.Regular) (maxDepth : Nat) (strict : Bool) :
    Regular { c with maxDepth, strict } :=
  ⟨⟨h.bounded, h.descending⟩, h.positive, h.announced⟩

theorem Regular.way (h : c.Regular) (hway : Way c trail d) : d.Regular :=
  (hway.all closed_regular (fun _ maxDepth strict hc => hc.configured maxDepth strict) h).1

/-- No more scopes are open than the limit allows, if it stays as it is. -/
theorem closed_room (limit : Nat) : Closed fun c => c.maxDepth = limit ∧ c.depth ≤ limit := by
  rintro c d hchange ⟨rfl, hroom⟩
  cases hchange with
  | source s => exact ⟨rfl, hroom⟩
  | altered hframes halters => simpa [depth, hframes] using hroom
  | opened kind n hfree => exact ⟨rfl, hfree⟩
  | popped =>
      refine ⟨rfl, ?_⟩
      rw [depth, List.length_tail]
      exact Nat.le_trans (Nat.sub_le ..) hroom

theorem after_regular (hframes : c.frames = []) (requests : List Request) :
    (c.after requests).Regular := by
  apply closed_regular.after _ _ (regular_of_nil hframes)
  · intro c maxDepth strict _ h
    exact h.configured maxDepth strict
  · intro _ c _
    exact regular_of_nil rfl

end Cursor

end MsgPack
