import MsgPack.Proofs.Cursor.Skipping

/-!
Closing a scope from within others. Scopes are known by numbers that rise from
the outermost inward, so a number stands for one open scope. A call to close a
scope that is not the innermost one closes the scopes inside it first, one by
one from the innermost outward. It complains about its caller only if the scope
is of the other kind; past that, only the input and strictness are in its way.
-/

namespace MsgPack

namespace Get

variable {α : Type} {g : Get α} {s t : Source} {e : Error}

theorem Mild.blameless (h : Mild g) (hg : g s = .error e t) : e.kind ≠ .readerContext := by
  obtain ⟨hkind, -⟩ | ⟨-, hkind⟩ := h _ _ _ hg
  · rw [hkind]
    exact ErrorKind.noConfusion
  · exact hkind

theorem hard_discard (hg : Hard g) : Hard (discard g) := hg.bind fun _ => hard_pure _

theorem mild_skipLeaf : Mild skipLeaf := by
  have hheaded {header : Get Nat} (h : Mild header) : Mild (do discard (read (← header))) :=
    h.bind fun n => hard_discard (hard_read n)
  refine mild_marker_bind fun m => ?_
  split
  · exact hheaded (mild_length _ _)
  · exact hheaded (mild_length _ _)
  · exact hheaded (mild_length _ _)
  · exact hheaded (mild_length _ _)
  · exact hheaded (mild_length _ _)
  · exact hheaded (mild_length _ _)
  · exact (hard_discard (hard_read _)).mild
  · split
    · exact mild_extension.bind fun _ => hard_pure _
    · split
      · exact (hard_discard (hard_read _)).mild
      · exact (hard_discard (hard_read _)).mild
      · exact (hard_discard hard_byte).mild

end Get

namespace Cursor

variable {c c' : Cursor} {e : Error} {f g : Frame} {inner outer : List Frame} {one : Step Unit}
  {kind : Container} {strict : Bool}

/-! ### Numbers -/

/-- Scopes have got their numbers in the order in which they were opened. -/
structure Ranked (c : Cursor) : Prop where
  bounded : ∀ f ∈ c.frames, f.id ≤ c.lastId
  descending : c.frames.Pairwise fun f g => g.id < f.id

theorem stable_ranked : Stable Ranked where
  source c s h := ⟨h.bounded, h.descending⟩
  altered c f g outer h hframes hid _ := by
    have hbounded := h.bounded
    have hdescending := h.descending
    rw [hframes] at hbounded hdescending
    rw [List.forall_mem_cons] at hbounded
    rw [List.pairwise_cons] at hdescending
    refine ⟨List.forall_mem_cons.mpr ⟨hid ▸ hbounded.1, hbounded.2⟩, ?_⟩
    exact List.pairwise_cons.mpr ⟨hid ▸ hdescending.1, hdescending.2⟩
  opened c kind n h := by
    refine ⟨List.forall_mem_cons.mpr ⟨Nat.le_refl _, fun f hf => ?_⟩, ?_⟩
    · exact Nat.le_succ_of_le (h.bounded f hf)
    · exact List.pairwise_cons.mpr ⟨fun f hf => Nat.lt_succ_of_le (h.bounded f hf), h.descending⟩
  popped c h := ⟨fun f hf => h.bounded f (List.mem_of_mem_tail hf), h.descending.tail⟩

theorem Reachable.ranked (h : Reachable c) : c.Ranked :=
  h.of_stable stable_ranked (fun _ _ _ _ _ => ⟨List.forall_mem_nil _, .nil⟩)
    (fun _ _ _ hc => ⟨hc.bounded, hc.descending⟩) fun _ => ⟨List.forall_mem_nil _, .nil⟩

/-- The number of a scope is that of no scope inside it. -/
theorem Ranked.ne_of_inner (h : c.Ranked) (hframes : c.frames = inner ++ g :: outer) :
    ∀ f ∈ inner, f.id ≠ g.id := by
  have hdescending := h.descending
  rw [hframes] at hdescending
  intro f hf
  exact Nat.ne_of_gt ((List.pairwise_append.mp hdescending).2.2 f hf g (List.mem_cons_self ..))

/-- The scope is found, and then its kind is looked at. -/
theorem scopesUpTo_of_frames (hframes : c.frames = inner ++ g :: outer)
    (hinner : ∀ f ∈ inner, f.id ≠ g.id) :
    scopesUpTo kind g.id c = if g.kind = kind then .ok (inner.length + 1) c
      else .error (.readerContext .closedAsOther) c := by
  have hother : inner.findIdx? (fun f => (f.id : Int) == g.id) = none := by
    rw [List.findIdx?_eq_none_iff]
    exact fun f hf => beq_eq_false_iff_ne.mpr fun heq => hinner f hf (Int.ofNat.inj heq)
  have hfind : c.frames.findIdx? (fun f => (f.id : Int) == g.id) = some inner.length := by
    rw [hframes, List.findIdx?_append, hother, List.findIdx?_cons, if_pos (beq_self_eq_true _)]
    simp
  have hget : c.frames[inner.length]? = some g := by
    rw [hframes, List.getElem?_append_right (Nat.le_refl _), Nat.sub_self]
    rfl
  rw [scopesUpTo, bind_apply, get_apply]
  dsimp only
  rw [hfind]
  dsimp only
  rw [hget]
  dsimp only
  split <;> rfl

/-! ### Complaints -/

/-- Wherever an element may be passed over, the step does not complain about
its caller. -/
def Blameless (one : Step Unit) : Prop :=
  ∀ (c c' : Cursor) (e : Error), Readable c.frames → SettledIn c.frames → one c = .error e c' →
    e.kind ≠ .readerContext

theorem times_blameless (hone : Blameless one) (hdiscards : Discards one) {k : Nat}
    (hframes : c.frames = f :: outer) (hremaining : f.remaining = k) (hsettled : f.Settled)
    (h : times (do announceSkipped; one) k c = .error e c') : e.kind ≠ .readerContext := by
  induction k generalizing c f with
  | zero => cases h
  | succ k ih =>
      obtain ⟨g, hannounce, hreadable, hg, hpassed⟩ :=
        announceSkipped_of_frames hframes (by rw [hremaining]; exact Nat.succ_ne_zero _) hsettled
      obtain hstep | ⟨_, c₁, hstep, htimes⟩ := bind_eq_error_iff.mp h
      · rw [bind_of_ok hannounce] at hstep
        exact hone { c with frames := g :: outer } c' e hreadable hg hstep
      · rw [bind_of_ok hannounce] at hstep
        obtain ⟨n, rest, -, -, -, hpast⟩ :=
          hdiscards { c with frames := g :: outer } c₁ hg hstep
        have hframes₁ : c₁.frames = f.passed :: outer := hpassed ▸ hpast.frames
        exact ih hframes₁ (by rw [Frame.passed, hremaining]; rfl) f.settled_passed htimes

theorem drainWith_blameless (hone : Blameless one) (hdiscards : Discards one)
    (hframes : c.frames = f :: outer) (hsettled : f.Settled)
    (h : drainWith one c = .error e c') : e.kind ≠ .readerContext := by
  rw [drainWith, bind_of_ok (innermost_of_frames hframes)] at h
  obtain htimes | ⟨_, c₁, -, hpop⟩ := bind_eq_error_iff.mp h
  · exact times_blameless hone hdiscards hframes rfl hsettled htimes
  · cases hpop

theorem beginScope_blameless (hreadable : Readable c.frames)
    (h : beginScope kind c = .error e c') : e.kind ≠ .readerContext := by
  cases hheader : headerOf kind c.source with
  | error e' t =>
      cases (beginScope_of_error hreadable hheader).symm.trans h
      exact (mild_headerOf kind).blameless hheader
  | ok n t =>
      rw [beginScope_of_ok hreadable hheader] at h
      by_cases hroom : (c.frames.modifyHead Frame.stepped).length < c.maxDepth
      · cases (pushFrame_of_room kind (places kind n) hroom).symm.trans h
      · cases (pushFrame_of_full kind (places kind n) (Nat.le_of_not_lt hroom)).symm.trans h
        exact ErrorKind.noConfusion

theorem blameless_container (kind : Container) (hone : Blameless one) (hdiscards : Discards one) :
    Blameless (do discard (beginScope kind); drainWith one) := by
  intro c c' e hreadable hsettled h
  obtain hbegin | ⟨_, c₁, hbegin, hdrain⟩ := bind_eq_error_iff.mp h
  · obtain hbegin | ⟨_, _, -, hpure⟩ := bind_eq_error_iff.mp hbegin
    · exact beginScope_blameless hreadable hbegin
    · cases hpure
  · obtain ⟨key, c₂, hopen, hc₂⟩ := bind_eq_ok_iff.mp hbegin
    cases hc₂
    obtain ⟨-, -, -, header, n, rest, -, -, rfl⟩ := beginScope_inv hopen
    exact drainWith_blameless hone hdiscards rfl (Frame.settled_opened kind key n) hdrain

theorem blameless_skipWith (hone : Blameless one) (hdiscards : Discards one) :
    Blameless (skipWith one) := by
  intro c c' e hreadable hsettled h
  cases hmarker : Get.marker c.source with
  | error e' t =>
      cases (bind_of_error (fromSource_of_error hmarker)).symm.trans h
      exact (Get.hard_marker _ _ _ hmarker).2
  | ok m t =>
      obtain rfl := Get.still_marker _ _ _ hmarker
      cases he : m.code.entity? with
      | none =>
          rw [skipWith, bind_of_ok (fromSource_of_ok hmarker), he] at h
          cases h
          exact ErrorKind.noConfusion
      | some entity =>
          by_cases hkind : ∃ kind : Container, entity = kind.entity
          · obtain ⟨kind, rfl⟩ := hkind
            rw [skipWith_of_container hmarker he] at h
            exact blameless_container kind hone hdiscards c c' e hreadable hsettled h
          · rw [skipWith_of_leaf hmarker he fun kind heq => hkind ⟨kind, heq⟩] at h
            cases hskip : Get.skipLeaf c.source with
            | error e' t =>
                cases (bind_of_error (fromSource_of_error hskip)).symm.trans h
                exact Get.mild_skipLeaf.blameless hskip
            | ok _ t =>
                rw [bind_of_ok (fromSource_of_ok hskip), stepOverSkipped_apply] at h
                cases h

theorem blameless_skipWithin (levels : Nat) : Blameless (skipWithin levels) := by
  induction levels with
  | zero =>
      have hdeep : Blameless tooDeep := by
        rintro c c' e - - ⟨⟩
        exact ErrorKind.noConfusion
      have hnothing : Discards tooDeep := by
        rintro c c' - ⟨⟩
      exact blameless_skipWith hdeep hnothing
  | succ levels ih => exact blameless_skipWith ih (discards_skipWithin levels)

/-! ### Closing scopes -/

theorem closeInnermost_ok (hframes : c.frames = f :: outer) (hsettled : f.Settled)
    (h : closeInnermost strict c = .ok () c') : c'.frames = outer := by
  rw [closeInnermost, bind_of_ok (innermost_of_frames hframes)] at h
  split at h
  · cases h
  · obtain ⟨items, rest, -, -, -, -, hpast⟩ :=
      drainWith_discards (discards_skipWithin _) hframes hsettled h
    exact hpast.frames

theorem closeInnermost_blameless (hframes : c.frames = f :: outer) (hsettled : f.Settled)
    (h : closeInnermost strict c = .error e c') : e.kind ≠ .readerContext := by
  rw [closeInnermost, bind_of_ok (innermost_of_frames hframes)] at h
  split at h
  · cases h
    exact ErrorKind.noConfusion
  · exact drainWith_blameless (blameless_skipWithin _) (discards_skipWithin _) hframes hsettled h

/-- A scope that has been read to its end is closed as it is. -/
theorem closeInnermost_of_exhausted (hframes : c.frames = f :: outer) (h : f.remaining = 0) :
    closeInnermost strict c = .ok () { c with frames := outer } := by
  have hdrain (one : Step Unit) : drainWith one c = .ok () { c with frames := outer } := by
    rw [drainWith, bind_of_ok (innermost_of_frames hframes), h, times]
    show EStateM.Result.ok () { c with frames := c.frames.tail } = _
    rw [hframes]
    rfl
  rw [closeInnermost, bind_of_ok (innermost_of_frames hframes), if_neg (by simp [h])]
  exact hdrain _

theorem closeInnermost_of_unread (hframes : c.frames = f :: outer) (h : f.remaining ≠ 0) :
    closeInnermost true c = .error (.invalidData (.unread f.remaining)) c := by
  rw [closeInnermost, bind_of_ok (innermost_of_frames hframes), if_pos (by simp [h])]
  rfl

theorem times_close_ok (hframes : c.frames = inner ++ outer) (hsettled : ∀ f ∈ inner, f.Settled)
    (h : times (closeInnermost strict) inner.length c = .ok () c') : c'.frames = outer := by
  induction inner generalizing c with
  | nil =>
      cases h
      exact hframes
  | cons f inner ih =>
      rw [List.forall_mem_cons] at hsettled
      obtain ⟨_, c₁, hclose, hrest⟩ := bind_eq_ok_iff.mp h
      exact ih (closeInnermost_ok hframes hsettled.1 hclose) hsettled.2 hrest

theorem times_close_blameless (hframes : c.frames = inner ++ outer)
    (hsettled : ∀ f ∈ inner, f.Settled)
    (h : times (closeInnermost strict) inner.length c = .error e c') :
    e.kind ≠ .readerContext := by
  induction inner generalizing c with
  | nil => cases h
  | cons f inner ih =>
      rw [List.forall_mem_cons] at hsettled
      obtain hclose | ⟨_, c₁, hclose, hrest⟩ := bind_eq_error_iff.mp h
      · exact closeInnermost_blameless hframes hsettled.1 hclose
      · exact ih (closeInnermost_ok hframes hsettled.1 hclose) hsettled.2 hrest

/-- In strict mode nothing is read: the scopes are closed up to the first that
has elements left. -/
theorem times_close_strict (hframes : c.frames = inner ++ outer) :
    (∀ f ∈ inner, f.remaining = 0) ∧
        times (closeInnermost true) inner.length c = .ok () { c with frames := outer } ∨
      ∃ read f unread, inner = read ++ f :: unread ∧ (∀ g ∈ read, g.remaining = 0) ∧
        f.remaining ≠ 0 ∧ times (closeInnermost true) inner.length c =
          .error (.invalidData (.unread f.remaining))
            { c with frames := f :: (unread ++ outer) } := by
  induction inner generalizing c with
  | nil =>
      obtain rfl : c.frames = outer := hframes
      exact .inl ⟨List.forall_mem_nil _, rfl⟩
  | cons f inner ih =>
      by_cases hread : f.remaining = 0
      · have hclose : closeInnermost true c = .ok () { c with frames := inner ++ outer } :=
          closeInnermost_of_exhausted hframes hread
        rw [List.length_cons, times, bind_of_ok hclose]
        obtain ⟨hall, hdone⟩ | ⟨read, g, unread, rfl, hreads, hg, hfail⟩ :=
          ih (c := { c with frames := inner ++ outer }) rfl
        · exact .inl ⟨List.forall_mem_cons.mpr ⟨hread, hall⟩, hdone⟩
        · exact .inr
            ⟨f :: read, g, unread, rfl, List.forall_mem_cons.mpr ⟨hread, hreads⟩, hg, hfail⟩
      · refine .inr ⟨[], f, inner, rfl, List.forall_mem_nil _, hread, ?_⟩
        rw [List.length_cons, times, bind_of_error (closeInnermost_of_unread hframes hread)]
        rw [List.cons_append] at hframes
        rw [← hframes]

theorem endScope_of_inner (hframes : c.frames = inner ++ g :: outer)
    (hinner : ∀ f ∈ inner, f.id ≠ g.id) :
    endScope g.kind g.id c = times (closeInnermost c.strict) (inner ++ [g]).length c := by
  have hupTo : scopesUpTo g.kind g.id c = .ok (inner.length + 1) c :=
    (scopesUpTo_of_frames hframes hinner).trans (if_pos rfl)
  rw [endScope, bind_of_ok hupTo, bind_apply, get_apply, List.length_append]
  rfl

/-- To close a scope, with whatever scopes open inside it, is refused as a misuse
exactly if it is asked for under the other kind. Otherwise no complaint is about
the caller, and when it is done the scope and all inside it are closed. In
strict mode nothing is read for that, and where some scope has elements left
those inside it are closed all the same. -/
theorem endScope_refused_iff (h : Reachable c) (hframes : c.frames = inner ++ g :: outer)
    (kind : Container) :
    ((∃ misuse c', endScope kind g.id c = .error (.readerContext misuse) c' ∧
        c'.source = c.source ∧ c'.frames = c.frames) ↔ kind ≠ g.kind) ∧
      (kind = g.kind →
        (∀ c', endScope kind g.id c = .ok () c' → c'.frames = outer) ∧
        (∀ e c', endScope kind g.id c = .error e c' → e.kind ≠ .readerContext) ∧
        (c.strict = true →
          (∀ f ∈ inner ++ [g], f.remaining = 0) ∧
              endScope kind g.id c = .ok () { c with frames := outer } ∨
            ∃ read f unread, inner ++ [g] = read ++ f :: unread ∧
              (∀ f' ∈ read, f'.remaining = 0) ∧ f.remaining ≠ 0 ∧
              endScope kind g.id c = .error (.invalidData (.unread f.remaining))
                { c with frames := f :: (unread ++ outer) })) := by
  have hinner := h.ranked.ne_of_inner hframes
  have hclosing : c.frames = inner ++ [g] ++ outer := by
    rw [hframes, List.append_assoc, List.singleton_append]
  have hsettled : ∀ f ∈ inner ++ [g], f.Settled := fun f hf =>
    h.orderly.settled f (hclosing ▸ List.mem_append_left outer hf)
  have hblameless : ∀ e c', endScope g.kind g.id c = .error e c' → e.kind ≠ .readerContext := by
    intro e c' herror
    rw [endScope_of_inner hframes hinner] at herror
    exact times_close_blameless hclosing hsettled herror
  refine ⟨⟨?_, fun hkind => ?_⟩, ?_⟩
  · rintro ⟨misuse, c', herror, -⟩ rfl
    exact hblameless _ _ herror rfl
  · have hupTo : scopesUpTo kind g.id c = .error (.readerContext .closedAsOther) c :=
      (scopesUpTo_of_frames hframes hinner).trans (if_neg (Ne.symm hkind))
    exact ⟨_, c, bind_of_error hupTo, rfl, rfl⟩
  · rintro rfl
    refine ⟨fun c' hdone => ?_, hblameless, fun hstrict => ?_⟩
    · rw [endScope_of_inner hframes hinner] at hdone
      exact times_close_ok hclosing hsettled hdone
    · have hclose := endScope_of_inner hframes hinner
      rw [hstrict] at hclose
      rw [hclose]
      exact times_close_strict hclosing

/-- In an empty array, the only element of another one. -/
def inEmptyArray (strict : Bool) : Cursor :=
  { strict, source := ⟨.memory, [], 2⟩,
    frames := [.opened .array 2 0, .opened .array 1 0], lastId := 2 }

theorem reachable_inEmptyArray (strict : Bool) : Reachable (inEmptyArray strict) := by
  have hfresh : Reachable _ := .fresh .widening Value.defaultDepth strict .memory [0x91, 0x90]
  exact .done (.done hfresh (.enter .array) rfl) (.enter .array) rfl

/-- The outer array is not closed as a map. -/
theorem endScope_refused_inEmptyArray :
    Reachable (inEmptyArray true) ∧
      (inEmptyArray true).frames = [.opened .array 2 0] ++ Frame.opened .array 1 0 :: [] ∧
      Container.map ≠ (Frame.opened .array 1 0).kind ∧
      ∃ misuse c', endScope .map (1 : Nat) (inEmptyArray true) =
          .error (.readerContext misuse) c' ∧
        c'.source = (inEmptyArray true).source ∧ c'.frames = (inEmptyArray true).frames := by
  have hframes : (inEmptyArray true).frames =
      [.opened .array 2 0] ++ Frame.opened .array 1 0 :: [] := rfl
  have hkind : Container.map ≠ (Frame.opened .array 1 0).kind := by decide
  exact ⟨reachable_inEmptyArray true, hframes, hkind,
    (endScope_refused_iff (reachable_inEmptyArray true) hframes .map).1.mpr hkind⟩

/-- The outer array is closed with the inner one, strict or not. -/
theorem endScope_closes_inner :
    (Reachable (inEmptyArray false) ∧ endScope .array (1 : Nat) (inEmptyArray false) =
      .ok () { inEmptyArray false with frames := [] }) ∧
    Reachable (inEmptyArray true) ∧ endScope .array (1 : Nat) (inEmptyArray true) =
      .ok () { inEmptyArray true with frames := [] } :=
  ⟨⟨reachable_inEmptyArray false, rfl⟩, reachable_inEmptyArray true, rfl⟩

end Cursor

end MsgPack
