import MsgPack.Proofs.Cursor.Keys

/-!
Counting the elements of a scope down. A cursor that counts in another way, of
which it is only known what comes before a positive number, does the same as
long as nothing is counted that is not there. So what the counter would do at
zero is never asked, and a counter of fixed width would do.
-/

namespace MsgPack.Cursor

/-! ### Counting in another way -/

section By

variable (less : Nat → Nat)

def stepOverBy : Step Unit :=
  modifyInnermost fun f =>
    { f with keyPending := !f.atKey && f.keyPending, remaining := less f.remaining }

def stepOverSkippedBy : Step Unit :=
  modifyInnermost fun f => { f with keyPending := false, remaining := less f.remaining }

def leafBy {α : Type} (get : Get α) : Step α := do
  checkReadable
  let a ← fromSource get
  stepOverBy less
  return a

def beginScopeBy (kind : Container) : Step Nat := do
  checkReadable
  let n ← fromSource (headerOf kind)
  stepOverBy less
  pushFrame kind (places kind n)

def skipWithBy (one : Step Unit) : Step Unit := do
  let m ← fromSource Get.marker
  match m.code.entity? with
  | some .array =>
    discard (beginScopeBy less .array)
    drainWith one
  | some .map =>
    discard (beginScopeBy less .map)
    drainWith one
  | some _ =>
    fromSource Get.skipLeaf
    stepOverSkippedBy less
  | none => fromSource (Get.refuse .anyValue m)

def skipWithinBy : (levels : Nat) → Step Unit
  | 0 => skipWithBy less tooDeep
  | levels + 1 => skipWithBy less (skipWithinBy levels)

def skipBy : Step Unit := do
  checkReadable
  skipWithinBy less (← levelsLeft)

def closeInnermostBy (strict : Bool) : Step Unit := do
  let f ← innermost
  if strict && f.remaining ≠ 0 then
    throw (.invalidData (.unread f.remaining))
  else
    drainWith (skipWithinBy less (← levelsLeft))

def endScopeBy (kind : Container) (key : Int) : Step Unit := do
  let n ← scopesUpTo kind key
  times (closeInnermostBy less (← get).strict) n

/-- The act, with `less` in place of the number before. -/
def Act.stepBy : Act → Step Unit
  | enter kind => discard (beginScopeBy less kind)
  | leave kind number => endScopeBy less kind number
  | key => announceKey
  | skip => skipBy less
  | leaf g => discard (leafBy less g)

end By

/-- Counting down by one is what a cursor does. -/
theorem Act.stepBy_sub_one (act : Act) : act.stepBy (· - 1) = act.step := by
  have hbegin : ∀ kind, beginScopeBy (· - 1) kind = beginScope kind := fun kind => by
    cases kind <;> rfl
  have hskip : ∀ levels, skipWithinBy (· - 1) levels = skipWithin levels := by
    have hwith : ∀ one, skipWithBy (· - 1) one = skipWith one := fun one => by
      simp only [skipWithBy, hbegin]
      rfl
    intro levels
    induction levels with
    | zero => exact hwith tooDeep
    | succ levels ih => rw [skipWithinBy, skipWithin, hwith, ih]
  cases act with
  | enter kind => simp only [Act.stepBy, Act.step, hbegin]
  | leave kind number => simp only [Act.stepBy, Act.step, endScopeBy, closeInnermostBy, hskip]; rfl
  | key => rfl
  | skip => simp only [Act.stepBy, Act.step, skipBy, hskip]; rfl
  | leaf g => rfl

/-! ### Where elements are left -/

section Agreement

variable {less : Nat → Nat} {c c' : Cursor} {f : Frame} {inner outer : List Frame}
  {one one' : Step Unit} {kind : Container} {strict : Bool} {α : Type}

theorem fromSource_frames {g : Get α} {a : α} (h : fromSource g c = .ok a c') :
    c'.frames = c.frames := by
  rw [fromSource] at h
  split at h
  · cases h
    rfl
  · cases h

theorem readable_of_checkReadable (h : checkReadable c = .ok () c') :
    Readable c.frames ∧ c' = c := by
  have hbind : (checkReadable >>= pure) c = .ok () c' := by rw [bind_pure, h]
  have hreadable : Readable c.frames := readable_of_ok hbind
  cases h.symm.trans (checkReadable_of_readable hreadable)
  exact ⟨hreadable, rfl⟩

/-- It matters to no scope that has elements left. -/
theorem modifyInnermost_congr {change change' : Frame → Frame} (hreadable : Readable c.frames)
    (h : ∀ f : Frame, f.remaining ≠ 0 → change f = change' f) :
    modifyInnermost change c = modifyInnermost change' c := by
  cases hframes : c.frames with
  | nil => simp only [modifyInnermost, modify_apply, hframes]
  | cons f outer =>
      rw [hframes] at hreadable
      rw [modifyInnermost_of_frames _ hframes, modifyInnermost_of_frames _ hframes,
        h f hreadable.1]

theorem scopesUpTo_inv {key : Int} {n : Nat} (h : scopesUpTo kind key c = .ok n c') :
    c' = c ∧ n ≤ c.frames.length := by
  rw [scopesUpTo, bind_apply, get_apply] at h
  dsimp only at h
  cases hfind : c.frames.findIdx? (fun f => (f.id : Int) == key) with
  | none =>
      rw [hfind] at h
      cases h
  | some i =>
      obtain ⟨hi, -⟩ := List.findIdx?_eq_some_iff_getElem.mp hfind
      rw [hfind] at h
      dsimp only at h
      rw [List.getElem?_eq_getElem hi] at h
      dsimp only at h
      split at h
      · cases h
        exact ⟨rfl, hi⟩
      · cases h

/-- Wherever an element may be passed over, the steps do the same. -/
def Agrees (one one' : Step Unit) : Prop :=
  ∀ c : Cursor, Readable c.frames → SettledIn c.frames → one c = one' c

/-- Before each element of a drained scope there is one left. -/
theorem times_agrees (hone : Agrees one' one) (hdiscards : Discards one) {k : Nat}
    (hframes : c.frames = f :: outer) (hremaining : f.remaining = k) (hsettled : f.Settled) :
    times (do announceSkipped; one') k c = times (do announceSkipped; one) k c := by
  induction k generalizing c f with
  | zero => rfl
  | succ k ih =>
      obtain ⟨g, hannounce, hreadable, hg, hpassed⟩ :=
        announceSkipped_of_frames hframes (by rw [hremaining]; exact Nat.succ_ne_zero _) hsettled
      have hstep : (do announceSkipped; one') c = (do announceSkipped; one) c := by
        rw [bind_of_ok hannounce, bind_of_ok hannounce]
        exact hone _ hreadable hg
      refine bind_congr_at hstep fun _ d hdone => ?_
      rw [bind_of_ok hannounce] at hdone
      obtain ⟨n, rest, -, -, -, hpast⟩ := hdiscards { c with frames := g :: outer } d hg hdone
      have hframes' : d.frames = f.passed :: outer := hpassed ▸ hpast.frames
      exact ih hframes' (by rw [Frame.passed, hremaining]; rfl) f.settled_passed

theorem drainWith_agrees (hone : Agrees one' one) (hdiscards : Discards one)
    (hframes : c.frames = f :: outer) (hsettled : f.Settled) :
    drainWith one' c = drainWith one c := by
  rw [drainWith, drainWith, bind_of_ok (innermost_of_frames hframes),
    bind_of_ok (innermost_of_frames hframes)]
  exact bind_congr_at (times_agrees hone hdiscards hframes rfl hsettled) fun _ _ _ => rfl

variable (hless : ∀ n, less (n + 1) = n)

include hless

theorem less_eq {n : Nat} (h : n ≠ 0) : less n = n - 1 := by
  obtain ⟨m, rfl⟩ := Nat.exists_eq_succ_of_ne_zero h
  exact hless m

theorem stepOverBy_eq (hreadable : Readable c.frames) : stepOverBy less c = stepOver c :=
  modifyInnermost_congr hreadable fun f hremaining => by rw [less_eq hless hremaining]

theorem stepOverSkippedBy_eq (hreadable : Readable c.frames) :
    stepOverSkippedBy less c = stepOverSkipped c :=
  modifyInnermost_congr hreadable fun f hremaining => by rw [less_eq hless hremaining]

/-- An element is counted after it has been looked whether there is one. -/
theorem leafBy_eq (g : Get α) (c : Cursor) : leafBy less g c = leaf g c := by
  refine bind_congr_at rfl fun _ c₁ hcheck => ?_
  obtain ⟨hreadable, rfl⟩ := readable_of_checkReadable hcheck
  refine bind_congr_at rfl fun a c₂ hsource => ?_
  rw [← fromSource_frames hsource] at hreadable
  exact bind_congr_at (stepOverBy_eq hless hreadable) fun _ _ _ => rfl

theorem beginScopeBy_eq (kind : Container) (c : Cursor) :
    beginScopeBy less kind c = beginScope kind c := by
  have hopen : beginScope kind = (do
      checkReadable
      let n ← fromSource (headerOf kind)
      stepOver
      pushFrame kind (places kind n)) := by
    cases kind <;> rfl
  rw [hopen]
  refine bind_congr_at rfl fun _ c₁ hcheck => ?_
  obtain ⟨hreadable, rfl⟩ := readable_of_checkReadable hcheck
  refine bind_congr_at rfl fun n c₂ hsource => ?_
  rw [← fromSource_frames hsource] at hreadable
  exact bind_congr_at (stepOverBy_eq hless hreadable) fun _ _ _ => rfl

/-! ### Passing over elements -/

theorem agrees_skipWithBy (hone : Agrees one' one) (hdiscards : Discards one) :
    Agrees (skipWithBy less one') (skipWith one) := by
  intro c hreadable _
  have hcontainer : ∀ kind, (do discard (beginScopeBy less kind); drainWith one') c =
      (do discard (beginScope kind); drainWith one) c := by
    intro kind
    have hbegin : discard (beginScopeBy less kind) c = discard (beginScope kind) c := by
      rw [discard_apply, discard_apply, bind_apply, beginScopeBy_eq hless, ← bind_apply]
    refine bind_congr_at hbegin fun _ c₁ hopened => ?_
    obtain ⟨key, _, hopen, hpure⟩ := bind_eq_ok_iff.mp hopened
    cases hpure
    obtain ⟨-, -, -, header, n, rest, -, -, rfl⟩ := beginScope_inv hopen
    exact drainWith_agrees hone hdiscards rfl (Frame.settled_opened kind key n)
  have hleaf : (do fromSource Get.skipLeaf; stepOverSkippedBy less) c =
      (do fromSource Get.skipLeaf; stepOverSkipped) c := by
    refine bind_congr_at rfl fun _ c₁ hsource => ?_
    rw [← fromSource_frames hsource] at hreadable
    exact stepOverSkippedBy_eq hless hreadable
  refine bind_congr_at rfl fun m c₁ hmarker => ?_
  obtain ⟨-, rfl⟩ := fromSource_marker_inv hmarker
  cases he : m.code.entity? with
  | none => rfl
  | some e =>
      cases e with
      | array => exact hcontainer .array
      | map => exact hcontainer .map
      | _ => exact hleaf

theorem agrees_skipWithinBy (levels : Nat) :
    Agrees (skipWithinBy less levels) (skipWithin levels) := by
  induction levels with
  | zero =>
      have hnothing : Discards tooDeep := by
        rintro c c' - ⟨⟩
      exact agrees_skipWithBy hless (fun _ _ _ => rfl) hnothing
  | succ levels ih => exact agrees_skipWithBy hless ih (discards_skipWithin levels)

theorem skipBy_eq (hsettled : SettledIn c.frames) : skipBy less c = skip c := by
  refine bind_congr_at rfl fun _ c₁ hcheck => ?_
  obtain ⟨hreadable, rfl⟩ := readable_of_checkReadable hcheck
  exact agrees_skipWithinBy hless _ _ hreadable hsettled

/-! ### Closing scopes -/

theorem closeInnermostBy_eq (hframes : c.frames = f :: outer) (hsettled : f.Settled) :
    closeInnermostBy less strict c = closeInnermost strict c := by
  rw [closeInnermostBy, closeInnermost, bind_of_ok (innermost_of_frames hframes),
    bind_of_ok (innermost_of_frames hframes)]
  split
  · rfl
  · exact drainWith_agrees (agrees_skipWithinBy hless _) (discards_skipWithin _) hframes hsettled

theorem times_closeBy_eq (hframes : c.frames = inner ++ outer)
    (hsettled : ∀ f ∈ inner, f.Settled) :
    times (closeInnermostBy less strict) inner.length c =
      times (closeInnermost strict) inner.length c := by
  induction inner generalizing c with
  | nil => rw [List.length_nil, times, times]
  | cons f inner ih =>
      rw [List.forall_mem_cons] at hsettled
      refine bind_congr_at (closeInnermostBy_eq hless hframes hsettled.1) fun _ d hclose => ?_
      exact ih (closeInnermost_ok hframes hsettled.1 hclose) hsettled.2

theorem endScopeBy_eq (hsettled : ∀ f ∈ c.frames, f.Settled) (kind : Container) (key : Int) :
    endScopeBy less kind key c = endScope kind key c := by
  refine bind_congr_at rfl fun n d hupTo => ?_
  obtain ⟨rfl, hn⟩ := scopesUpTo_inv hupTo
  have hclose : times (closeInnermostBy less d.strict) (d.frames.take n).length d =
      times (closeInnermost d.strict) (d.frames.take n).length d :=
    times_closeBy_eq hless (List.take_append_drop n d.frames).symm fun f hf =>
      hsettled f (List.mem_of_mem_take hf)
  rwa [List.length_take_of_le hn] at hclose

theorem Act.stepBy_eq (hsettled : ∀ f ∈ c.frames, f.Settled) (act : Act) :
    act.stepBy less c = act.step c := by
  cases act with
  | enter kind => exact bind_congr_at (beginScopeBy_eq hless kind c) fun _ _ _ => rfl
  | leave kind number => exact endScopeBy_eq hless hsettled kind number
  | key => rfl
  | skip => exact skipBy_eq hless (settledIn_of_forall hsettled)
  | leaf g => exact bind_congr_at (leafBy_eq hless g c) fun _ _ _ => rfl

end Agreement

/-! ### Runs -/

/-- Let any calls be made, failing ones among them, under one limit. There are
never more scopes open than the limit allows. Their numbers are positive and
rise from the outermost scope inward. A key is announced only in a map, where
keys come next. All this holds within the next call as well, whichever it is, and
in it nothing is counted down from zero. Closing an open scope as what it is, no
complaint is about the caller. -/
theorem frames_regular {new : Cursor} {requests : List Request} (hnew : new.frames = [])
    (hfixed : ∀ limit strict, .configure limit strict ∈ requests → limit = new.maxDepth) :
    let c := new.after requests
    (c.Regular ∧ c.depth ≤ new.maxDepth) ∧
      (∀ act : Act, ∃ trail, Way c trail (act.on c) ∧
        ∀ d ∈ trail, d.Regular ∧ d.depth ≤ new.maxDepth) ∧
      (∀ less : Nat → Nat, (∀ n, less (n + 1) = n) → ∀ act : Act,
        act.stepBy less c = act.step c) ∧
      ∀ f ∈ c.frames, ∀ e d, endScope f.kind f.id c = .error e d → e.kind ≠ .readerContext := by
  intro c
  have hregular : c.Regular := after_regular hnew requests
  have hroom : c.maxDepth = new.maxDepth ∧ c.depth ≤ new.maxDepth := by
    refine (closed_room new.maxDepth).after ?_ ?_ ⟨rfl, by simp [depth, hnew]⟩
    · intro d limit strict hmem hd
      exact ⟨hfixed limit strict hmem, hd.2⟩
    · intro _ d hd
      exact ⟨hd.1, Nat.zero_le _⟩
  have hclosed : Closed fun d => d.Regular ∧ d.maxDepth = new.maxDepth ∧ d.depth ≤ new.maxDepth :=
    fun d e hchange hd => ⟨closed_regular d e hchange hd.1, closed_room _ d e hchange hd.2⟩
  refine ⟨⟨hregular, hroom.2⟩, ?_, ?_, ?_⟩
  · intro act
    obtain ⟨trail, hway, htrail⟩ := hclosed.way_act ⟨hregular, hroom⟩ act
    exact ⟨trail, hway, fun d hd => ⟨(htrail d hd).1, (htrail d hd).2.2⟩⟩
  · intro less hless act
    exact act.stepBy_eq hless hregular.settled
  · intro f hf e d herror
    obtain ⟨inner, outer, hframes⟩ := List.append_of_mem hf
    exact endScope_blameless hregular.toRanked hregular.settled hframes herror

/-- A counter of 64 bits. -/
def wrapping : Nat → Nat
  | 0 => 2 ^ 64 - 1
  | n + 1 => n

/-- Before a map of two entries that is cut off. -/
def beforeMap : Cursor := { maxDepth := 1, source := .ofBytes .memory [0x82, 0x01] }

/-- With its first key announced, and strict from then on. -/
def inMap : Cursor :=
  { maxDepth := 1, strict := true, source := ⟨.memory, [0x01], 1⟩,
    frames := [⟨1, .map, 4, true⟩], lastId := 1 }

/-- In the map the cursor does what it would do with a counter of 64 bits. -/
theorem frames_regular_map :
    let requests := [.act (.enter .map), .act .key, .configure 1 true]
    (∀ limit strict, .configure limit strict ∈ requests → limit = beforeMap.maxDepth) ∧
      beforeMap.after requests = inMap ∧ inMap.Regular ∧
      ∀ act : Act, act.stepBy wrapping inMap = act.step inMap := by
  intro requests
  have hfixed : ∀ limit strict, .configure limit strict ∈ requests →
      limit = beforeMap.maxDepth := by
    intro limit strict hmem
    have hlast : limit = 1 ∧ strict = true := by simpa [requests] using hmem
    exact hlast.1
  have hnew : beforeMap.frames = [] := rfl
  have hrun : beforeMap.after requests = inMap := rfl
  obtain ⟨⟨hregular, -⟩, -, hcounts, -⟩ := frames_regular hnew hfixed
  exact ⟨hfixed, hrun, hregular, hcounts wrapping fun _ => rfl⟩

end MsgPack.Cursor
