import MsgPack.Proofs.Cursor.Scanning
import MsgPack.Proofs.Value.Course

/-!
The course of passing over an element. Opening a container, passing over what is
in it and closing it call each other, and what bounds the nesting is the stack
of the scopes that are open. The relations below have no bound of their own:
they are the calls, with the innermost scope looked at anew before each element.
-/

namespace MsgPack

theorem Node.WellFormed.bytes_ne_nil {n : Node} (h : n.WellFormed) : n.bytes ≠ [] := by
  cases n with
  | leaf bs =>
      obtain ⟨e, hbegins, -⟩ := Leaf.begins h
      exact hbegins.ne_nil
  | container kind header items => exact (h.1.begins.append (Node.bytesAll items)).ne_nil

namespace Cursor

open EStateM (Result)

mutual

/-- Passing over one element, by way of the places at which an element is begun,
to the result. -/
inductive Skips : Cursor → List Source → Result Error Cursor Unit → Prop
  | flat {c : Cursor} (one : Step Unit) (h : ∀ kind, ¬c.source.Opens kind) :
      Skips c [c.source] (skipWith one c)
  | refused {c d : Cursor} {kind : Container} {e : Error} (h : c.source.Opens kind)
      (hbegin : beginScope kind c = .error e d) : Skips c [c.source] (.error e d)
  | container {c d : Cursor} {kind : Container} {key : Nat} {ps : List Source}
      {r : Result Error Cursor Unit} (h : c.source.Opens kind)
      (hbegin : beginScope kind c = .ok key d) (hinside : Drains d ps r) :
      Skips c (c.source :: ps) r

/-- Passing over what is left of the innermost scope, and closing it. -/
inductive Drains : Cursor → List Source → Result Error Cursor Unit → Prop
  | closed {c : Cursor} {f : Frame} {outer : List Frame} (hframes : c.frames = f :: outer)
      (hend : f.remaining = 0) : Drains c [] (.ok () { c with frames := outer })
  | failed {c c' d : Cursor} {f : Frame} {outer : List Frame} {ps : List Source} {e : Error}
      (hframes : c.frames = f :: outer) (hmore : f.remaining ≠ 0)
      (hannounce : announceSkipped c = .ok () c') (h : Skips c' ps (.error e d)) :
      Drains c ps (.error e d)
  | next {c c' d : Cursor} {f : Frame} {outer : List Frame} {ps qs : List Source}
      {r : Result Error Cursor Unit} (hframes : c.frames = f :: outer) (hmore : f.remaining ≠ 0)
      (hannounce : announceSkipped c = .ok () c') (h : Skips c' ps (.ok () d))
      (hrest : Drains d qs r) : Drains c (ps ++ qs) r

end

section Equations

variable {c c' d : Cursor} {f : Frame} {outer : List Frame} {one : Step Unit}

theorem skipWith_of_flat (h : ∀ kind, ¬c.source.Opens kind) (one one' : Step Unit) :
    skipWith one c = skipWith one' c := by
  cases hm : Get.marker c.source with
  | error e t =>
      have hmarker := fromSource_of_error hm
      rw [skipWith, skipWith, bind_of_error hmarker, bind_of_error hmarker]
  | ok m t =>
      obtain rfl := Get.still_marker _ _ _ hm
      cases he : m.code.entity? with
      | none =>
          have hmarker := fromSource_of_ok hm
          rw [skipWith, skipWith, bind_of_ok hmarker, bind_of_ok hmarker, he]
      | some e =>
          have hne : ∀ kind : Container, e ≠ kind.entity := fun kind heq =>
            h kind ⟨m, hm, heq ▸ he⟩
          rw [skipWith_of_leaf hm he hne, skipWith_of_leaf hm he hne]

theorem skipWith_of_refused {kind : Container} {e : Error} (h : c.source.Opens kind)
    (hbegin : beginScope kind c = .error e d) (one : Step Unit) :
    skipWith one c = .error e d := by
  obtain ⟨m, hm, he⟩ := h
  rw [skipWith_of_container hm he, bind_apply, discard_apply, bind_of_error hbegin]

theorem skipWith_of_begun {kind : Container} {key : Nat} (h : c.source.Opens kind)
    (hbegin : beginScope kind c = .ok key d) (one : Step Unit) :
    skipWith one c = drainWith one d := by
  obtain ⟨m, hm, he⟩ := h
  rw [skipWith_of_container hm he, bind_apply, discard_apply, bind_of_ok hbegin, pure_apply]

theorem drainWith_of_end (hframes : c.frames = f :: outer) (hend : f.remaining = 0) :
    drainWith one c = .ok () { c with frames := outer } := by
  rw [drainWith, bind_of_ok (innermost_of_frames hframes), hend]
  rw [times, pure_bind, modify_apply, hframes, List.tail_cons]

theorem drainWith_of_error {e : Error} (hframes : c.frames = f :: outer) (hmore : f.remaining ≠ 0)
    (hannounce : announceSkipped c = .ok () c') (hone : one c' = .error e d) :
    drainWith one c = .error e d := by
  obtain ⟨k, hk⟩ := Nat.exists_eq_succ_of_ne_zero hmore
  rw [drainWith, bind_of_ok (innermost_of_frames hframes), hk, times, bind_assoc, bind_assoc,
    bind_of_ok hannounce, bind_of_error hone]

/-- One turn of draining a scope: what is left to come has been looked at once
and for all, but the scope tells the same. -/
theorem drainWith_of_ok (hframes : c.frames = f :: outer) (hmore : f.remaining ≠ 0)
    (hannounce : announceSkipped c = .ok () c') (hone : one c' = .ok () d)
    (hframes' : d.frames = f.passed :: outer) : drainWith one c = drainWith one d := by
  obtain ⟨k, hk⟩ := Nat.exists_eq_succ_of_ne_zero hmore
  have hpassed : f.passed.remaining = k := by rw [Frame.passed, hk]; rfl
  rw [drainWith, bind_of_ok (innermost_of_frames hframes), hk, times, bind_assoc, bind_assoc,
    bind_of_ok hannounce, bind_of_ok hone, bind_of_ok (innermost_of_frames hframes'), hpassed]

end Equations

/-- The levels are all that the cursor has left, or more, and the innermost scope
is settled. -/
structure Bounded (levels : Nat) (c : Cursor) : Prop where
  settled : SettledIn c.frames
  room : c.maxDepth ≤ c.frames.length + levels

section Bounded

variable {c c' d : Cursor} {f : Frame} {outer : List Frame} {levels : Nat}

theorem Bounded.announced (h : Bounded levels c) (hframes : c.frames = f :: outer)
    (hmore : f.remaining ≠ 0) (hannounce : announceSkipped c = .ok () c') :
    Bounded levels c' ∧ c'.source = c.source ∧
      ∃ g, c' = { c with frames := g :: outer } ∧ g.passed = f.passed := by
  have hsettled := h.settled
  have hroom := h.room
  rw [hframes] at hsettled hroom
  obtain ⟨g, hrun, -, hg, hpassed⟩ := announceSkipped_of_frames hframes hmore hsettled
  cases hrun.symm.trans hannounce
  exact ⟨⟨hg, hroom⟩, rfl, g, rfl, hpassed⟩

/-- Behind an element that has been passed over the scope has one less. -/
theorem Bounded.turn (h : Bounded levels c) (hframes : c.frames = f :: outer)
    (hmore : f.remaining ≠ 0) (hannounce : announceSkipped c = .ok () c')
    (hone : skipWithin levels c' = .ok () d) :
    Bounded levels d ∧ d.frames = f.passed :: outer := by
  obtain ⟨hc', -, g, rfl, hpassed⟩ := h.announced hframes hmore hannounce
  obtain ⟨n, rest, -, -, -, hpast⟩ := discards_skipWithin levels _ _ hc'.settled hone
  have hframes' : d.frames = f.passed :: outer := hpast.frames.trans (congrArg (· :: outer) hpassed)
  have hroom := h.room
  refine ⟨⟨?_, ?_⟩, hframes'⟩
  · rw [hframes']
    exact f.settled_passed
  · rw [hframes', hpast.maxDepth]
    rwa [hframes] at hroom

/-- A scope that has been opened has got as many elements as the header of its
container announces, and takes one of the levels. -/
theorem Bounded.begun {kind : Container} {key : Nat} (h : Bounded levels c)
    (hbegin : beginScope kind c = .ok key d) :
    ∃ (k n : Nat) (f : Frame) (outer : List Frame), levels = k + 1 ∧ Bounded k d ∧
      headerOf kind c.source = .ok n d.source ∧ d.frames = f :: outer ∧
      f.remaining = places kind n := by
  obtain ⟨-, hroom, -, header, _, rest, hopening, hl, rfl⟩ := beginScope_inv hbegin
  obtain ⟨n, hheader, rfl⟩ := headerOf_of_opening hopening hl
  have hle := h.room
  obtain ⟨k, rfl⟩ : ∃ k, levels = k + 1 := Nat.exists_eq_succ_of_ne_zero (by omega)
  refine ⟨k, n, _, _, rfl, ⟨Frame.settled_opened kind key _, ?_⟩, hheader, rfl, rfl⟩
  show c.maxDepth ≤ (c.frames.modifyHead Frame.stepped).length + 1 + k
  rw [length_modifyHead]
  omega

end Bounded

/-! ### Courses and calls -/

mutual

/-- A course ends as the call does, whose levels are therefore no bound of their
own. -/
theorem Skips.result_eq {levels : Nat} {c : Cursor} {ps : List Source}
    {r : Result Error Cursor Unit} (h : Skips c ps r) (hc : Bounded levels c) :
    r = skipWithin levels c := by
  match h with
  | .flat one hflat => cases levels <;> exact skipWith_of_flat hflat _ _
  | .refused hopens hbegin => cases levels <;> exact (skipWith_of_refused hopens hbegin _).symm
  | .container hopens hbegin hinside =>
      obtain ⟨k, n, f, outer, rfl, hd, -, -, -⟩ := hc.begun hbegin
      rw [hinside.result_eq hd]
      exact (skipWith_of_begun hopens hbegin _).symm
  termination_by structural h

theorem Drains.result_eq {levels : Nat} {c : Cursor} {ps : List Source}
    {r : Result Error Cursor Unit} (h : Drains c ps r) (hc : Bounded levels c) :
    r = drainWith (skipWithin levels) c := by
  match h with
  | .closed hframes hend => exact (drainWith_of_end hframes hend).symm
  | .failed hframes hmore hannounce h =>
      have hone := (h.result_eq (hc.announced hframes hmore hannounce).1).symm
      exact (drainWith_of_error hframes hmore hannounce hone).symm
  | .next hframes hmore hannounce h hrest =>
      have hone := (h.result_eq (hc.announced hframes hmore hannounce).1).symm
      obtain ⟨hd, hframes'⟩ := hc.turn hframes hmore hannounce hone
      rw [hrest.result_eq hd, drainWith_of_ok hframes hmore hannounce hone hframes']
  termination_by structural h

end

theorem exists_drains {levels : Nat} (hone : ∀ c, Bounded levels c → ∃ ps r, Skips c ps r)
    {c : Cursor} {f : Frame} {outer : List Frame} (hc : Bounded levels c)
    (hframes : c.frames = f :: outer) : ∃ ps r, Drains c ps r := by
  -- the loop goes down by what is left of the scope, however much was announced
  generalize hremaining : f.remaining = k
  induction k generalizing c f with
  | zero => exact ⟨_, _, .closed hframes hremaining⟩
  | succ k ih =>
      have hmore : f.remaining ≠ 0 := hremaining ▸ Nat.succ_ne_zero k
      have hannounce : announceSkipped c = .ok () _ := modifyInnermost_of_frames _ hframes
      obtain ⟨ps, r, h⟩ := hone _ (hc.announced hframes hmore hannounce).1
      cases r with
      | error e d => exact ⟨_, _, .failed hframes hmore hannounce h⟩
      | ok u d =>
          have hrun := (h.result_eq (hc.announced hframes hmore hannounce).1).symm
          obtain ⟨hd, hframes'⟩ := hc.turn hframes hmore hannounce hrun
          obtain ⟨qs, r, hrest⟩ := ih hd hframes' (by rw [Frame.passed, hremaining]; rfl)
          exact ⟨_, _, .next hframes hmore hannounce h hrest⟩

/-- Every element that is passed over takes a course. -/
theorem exists_skips {levels : Nat} {c : Cursor} (hc : Bounded levels c) :
    ∃ ps r, Skips c ps r := by
  -- every scope that is opened takes a level, and none is opened without one
  induction levels using Nat.strongRecOn generalizing c with
  | ind levels ih =>
      by_cases hopens : ∃ kind, c.source.Opens kind
      · obtain ⟨kind, hopens⟩ := hopens
        cases hbegin : beginScope kind c with
        | error e d => exact ⟨_, _, .refused hopens hbegin⟩
        | ok key d =>
            obtain ⟨k, n, f, outer, rfl, hd, -, hframes, -⟩ := hc.begun hbegin
            have hone : ∀ c, Bounded k c → ∃ ps r, Skips c ps r := fun c hc =>
              ih k (Nat.lt_succ_self k) hc
            obtain ⟨ps, r, hinside⟩ := exists_drains hone hd hframes
            exact ⟨_, _, .container hopens hbegin hinside⟩
      · exact ⟨_, _, .flat tooDeep (not_exists.mp hopens)⟩

/-! ### The cost of a course -/

theorem Skips.mem {c : Cursor} {ps : List Source} {r : Result Error Cursor Unit}
    (h : Skips c ps r) : c.source ∈ ps := by
  cases h with
  | flat | refused | container => exact List.mem_cons_self

/-- An element that is passed over takes bytes. -/
theorem length_lt_of_skipWithin {levels : Nat} {c d : Cursor} (hc : Bounded levels c)
    (h : skipWithin levels c = .ok () d) : d.source.left.length < c.source.left.length := by
  obtain ⟨n, rest, hn, -, hl, hpast⟩ := discards_skipWithin levels c d hc.settled h
  have hpos := List.length_pos_of_ne_nil hn.bytes_ne_nil
  rw [hpast.left hl, hl, List.length_append]
  omega

mutual

theorem Skips.spends {levels : Nat} {c : Cursor} {ps : List Source}
    {r : Result Error Cursor Unit} (h : Skips c ps r) (hc : Bounded levels c) :
    Spends c.source ps (fun _ => True) r := by
  -- of a leaf it is known by its run that it takes bytes
  have hrun := (h.result_eq hc).symm
  match h with
  | .flat one hflat =>
      cases hone : skipWith one c with
      | error e d => exact .single c.source
      | ok u d => exact ⟨.flat hflat (length_lt_of_skipWithin hc (hrun.trans hone)), trivial⟩
  | .refused hopens hbegin => exact .single c.source
  | .container hopens hbegin hinside =>
      obtain ⟨k, n, f, outer, rfl, hd, hheader, hframes, hremaining⟩ := hc.begun hbegin
      refine ((hinside.spends hd hframes).container hheader fun _ hle => ?_).mono fun _ _ => trivial
      rwa [hremaining] at hle
  termination_by structural h

/-- Every element that was to come in the scope has had a place. -/
theorem Drains.spends {levels : Nat} {c : Cursor} {ps : List Source}
    {r : Result Error Cursor Unit} (h : Drains c ps r) (hc : Bounded levels c) {f : Frame}
    {outer : List Frame} (hframes : c.frames = f :: outer) :
    Spends c.source ps (fun _ => f.remaining ≤ ps.length) r := by
  match h with
  | .closed hframes' hend =>
      cases hframes.symm.trans hframes'
      exact ⟨.nil _, Nat.le_of_eq hend⟩
  | .failed hframes' hmore hannounce h =>
      obtain ⟨hc', hsource, -⟩ := hc.announced hframes' hmore hannounce
      have hspends := h.spends hc'
      rwa [hsource] at hspends
  | .next hframes' hmore hannounce h hrest =>
      cases hframes.symm.trans hframes'
      obtain ⟨hc', hsource, -⟩ := hc.announced hframes hmore hannounce
      obtain ⟨hd, hpassed⟩ := hc.turn hframes hmore hannounce (h.result_eq hc').symm
      have hspends := h.spends hc'
      rw [hsource] at hspends
      refine ((hrest.spends hd hpassed).append hspends.1).mono fun _ hle => ?_
      have hpos := List.length_pos_of_mem h.mem
      have hle : f.remaining - 1 ≤ _ := hle
      rw [List.length_append]
      omega
  termination_by structural h

end

/-! ### Calls on cursors -/

theorem Reachable.bounded {c : Cursor} (h : Reachable c) :
    Bounded (c.maxDepth - c.frames.length) c :=
  ⟨h.orderly.settledIn, by omega⟩

theorem Reachable.paidFor_skip {c : Cursor} (h : Reachable c) (hreadable : Readable c.frames) :
    PaidFor (Skips c) c.source (skip c) := by
  rw [skip_of_readable hreadable]
  exact .of_spends (exists_skips h.bounded) (fun _ _ hskips => hskips.result_eq h.bounded)
    fun _ _ hskips => hskips.spends h.bounded

theorem Reachable.paidFor_closeInnermost {c : Cursor} (h : Reachable c) {f : Frame}
    {outer : List Frame} (hframes : c.frames = f :: outer) :
    PaidFor (Drains c) c.source (closeInnermost false c) := by
  rw [closeInnermost_of_lax hframes]
  exact .of_spends (exists_drains (fun _ => exists_skips) h.bounded hframes)
    (fun _ _ hdrains => hdrains.result_eq h.bounded)
    fun _ _ hdrains => hdrains.spends h.bounded hframes

end Cursor

end MsgPack
