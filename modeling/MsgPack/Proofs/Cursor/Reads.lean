import MsgPack.Cursor.Value
import MsgPack.Proofs.Document

/-!
What steps of a cursor read. A step is described by the scopes that it finds
open and those that it leaves, by the bytes that it consumes and by its answer;
descriptions are chained as steps are. An element is read in any scope that has
room for it, and counts as one there.
-/

namespace MsgPack

/-- The successes of `g` on memory that begins with the string. -/
def Get.Finds {α : Type} (g : Get α) : Language α := fun bs a =>
  ∀ (s : Source) (rest : Bytes), s.kind = .memory → s.left = bs ++ rest →
    g s = .ok a (s.advance bs.length)

theorem Get.Accepts.finds {α : Type} {g : Get α} {L : Language α} (h : Accepts g L) {bs : Bytes}
    {a : α} (ha : L bs a) : Finds g bs a :=
  fun _ _ _ hl => h.complete hl ha

namespace Frame

/-- The scope with one element less to come. -/
def stepped (f : Frame) : Frame :=
  { f with keyPending := !f.atKey && f.keyPending, remaining := f.remaining - 1 }

/-- A scope with no key announced. -/
def opened (kind : Container) (key n : Nat) : Frame := { id := key, kind, remaining := n }

end Frame

namespace Cursor

variable {α β : Type} {fs fs' fs'' : List Frame} {outer : List Frame} {levels levels' : Nat}
  {bs bs' : Bytes} {a : α} {b : β}

def moved (c : Cursor) (n : Nat) (frames : List Frame) (lastId : Nat) : Cursor :=
  { c with source := c.source.advance n, frames, lastId }

/-- The scopes `fs` are open, there may be `levels` more, and `bs` is what comes
next. -/
structure Ready (c : Cursor) (fs : List Frame) (levels : Nat) (bs rest : Bytes) : Prop where
  memory : c.source.kind = .memory
  left : c.source.left = bs ++ rest
  frames : c.frames = fs
  room : fs.length + levels ≤ c.maxDepth
  policy : c.policy ≠ .exact

/-- The step consumes `bs` and answers `a`, with the scopes `fs'` open in place
of `fs`. -/
def Reads (step : Step α) (fs fs' : List Frame) (levels : Nat) (bs : Bytes) (a : α) : Prop :=
  ∀ (c : Cursor) (rest : Bytes), c.Ready fs levels bs rest →
    ∃ lastId, step c = .ok a (c.moved bs.length fs' lastId)

theorem Ready.moved {c : Cursor} {rest : Bytes} (h : c.Ready fs levels (bs ++ bs') rest)
    (hroom : fs'.length + levels' ≤ fs.length + levels) (lastId : Nat) :
    (c.moved bs.length fs' lastId).Ready fs' levels' bs' rest where
  memory := h.memory
  left := Source.left_advance_length (by rw [h.left, List.append_assoc])
  frames := rfl
  room := Nat.le_trans hroom h.room
  policy := h.policy

theorem moved_moved (c : Cursor) (m n id id' : Nat) :
    (c.moved m fs id).moved n fs' id' = c.moved (m + n) fs' id' := by
  rw [moved, moved, moved, Source.advance_advance]

theorem moved_zero {c : Cursor} (h : c.frames = fs) : c.moved 0 fs c.lastId = c := by
  subst h
  rfl

namespace Reads

theorem pure (a : α) : Reads (pure a) fs fs levels [] a := fun c _ h =>
  ⟨c.lastId, by rw [List.length_nil, moved_zero h.frames]; rfl⟩

theorem bind {step : Step α} {f : α → Step β} (hstep : Reads step fs fs' levels bs a)
    (hf : Reads (f a) fs' fs'' levels' bs' b)
    (hroom : fs'.length + levels' ≤ fs.length + levels) :
    Reads (step >>= f) fs fs'' levels (bs ++ bs') b := by
  intro c rest h
  have hfirst : c.Ready fs levels bs (bs' ++ rest) :=
    { h with left := by rw [h.left, List.append_assoc] }
  obtain ⟨id, hid⟩ := hstep _ _ hfirst
  obtain ⟨id', hid'⟩ := hf _ _ (h.moved hroom id)
  refine ⟨id', ?_⟩
  rw [bind_of_ok hid, hid', moved_moved, List.length_append]

/-- A step that consumes nothing, before one that does. -/
theorem skipTo {step : Step α} {f : α → Step β} (hstep : Reads step fs fs' levels [] a)
    (hf : Reads (f a) fs' fs'' levels bs b) (hlen : fs'.length ≤ fs.length) :
    Reads (step >>= f) fs fs'' levels bs b :=
  hstep.bind hf (Nat.add_le_add_right hlen levels)

/-- A step that consumes nothing, after one that does. -/
theorem andThen {step : Step α} {f : α → Step β} (hstep : Reads step fs fs' levels bs a)
    (hf : Reads (f a) fs' fs'' levels [] b) (hlen : fs'.length ≤ fs.length) :
    Reads (step >>= f) fs fs'' levels bs b := by
  have h := hstep.bind hf (Nat.add_le_add_right hlen levels)
  rwa [List.append_nil] at h

theorem map {step : Step α} (hstep : Reads step fs fs' levels bs a) (f : α → β)
    (hlen : fs'.length ≤ fs.length) : Reads (do return f (← step)) fs fs' levels bs (f a) :=
  hstep.andThen (.pure (f a)) hlen

end Reads

/-! ### Elements -/

/-- Whether the innermost scope has a place for an element. -/
def Readable : List Frame → Prop
  | [] => True
  | f :: _ => f.remaining ≠ 0 ∧ (f.atKey → f.keyPending)

/-- The elements that a step reads, with room for `levels` scopes. -/
def Element (step : Step α) (levels : Nat) : Language α := fun bs a =>
  ∀ fs : List Frame, Readable fs → Reads step fs (fs.modifyHead Frame.stepped) levels bs a

theorem length_modifyHead (f : Frame → Frame) (fs : List Frame) :
    (fs.modifyHead f).length = fs.length := by
  cases fs <;> rfl

theorem Element.map {step : Step α} (h : Element step levels bs a) (f : α → β) :
    Element (do return f (← step)) levels bs (f a) := fun _ hfs =>
  (h _ hfs).map f (Nat.le_of_eq (length_modifyHead _ _))

theorem checkReadable_of_readable {c : Cursor} (h : Readable c.frames) :
    checkReadable c = .ok () c := by
  rw [checkReadable, bind_apply, get_apply]
  dsimp only
  cases hframes : c.frames with
  | nil => rfl
  | cons f outer =>
      rw [hframes] at h
      have hkey : (f.atKey && !f.keyPending) = false := by
        cases hat : f.atKey with
        | false => rfl
        | true => rw [h.2 hat]; rfl
      dsimp only
      rw [if_neg h.1, hkey]
      rfl

theorem stepOver_apply (c : Cursor) :
    stepOver c = .ok () { c with frames := c.frames.modifyHead Frame.stepped } := by
  obtain ⟨policy, maxDepth, strict, source, frames, lastId⟩ := c
  cases frames <;> rfl

theorem fromSource_of_ok {g : Get α} {c : Cursor} {s : Source} (h : g c.source = .ok a s) :
    fromSource g c = .ok a { c with source := s } := by
  rw [fromSource, h]

theorem fromSource_of_error {g : Get α} {c : Cursor} {e : Error} {s : Source}
    (h : g c.source = .error e s) : fromSource g c = .error e { c with source := s } := by
  rw [fromSource, h]

theorem typeNext_of_marker {c : Cursor} {m : Marker} {e : EntityType}
    (hm : Get.marker c.source = .ok m c.source) (he : m.code.entity? = some e) :
    typeNext c = .ok e c := by
  refine (fromSource_of_ok ((bind_of_ok hm).trans ?_)).trans rfl
  rw [he]
  rfl

theorem typeNext_of_unknown {c : Cursor} {m : Marker}
    (hm : Get.marker c.source = .ok m c.source) (he : m.code.entity? = none) :
    typeNext c = .error (.unexpectedFormat (.marker .anyValue m)) c := by
  refine (fromSource_of_error ((bind_of_ok hm).trans ?_)).trans rfl
  rw [he]
  rfl

theorem leaf_of_ok {g : Get α} {c : Cursor} {t : Source} (hreadable : Readable c.frames)
    (h : g c.source = .ok a t) :
    leaf g c = .ok a { c with source := t, frames := c.frames.modifyHead Frame.stepped } := by
  rw [leaf, bind_of_ok (checkReadable_of_readable hreadable), bind_of_ok (fromSource_of_ok h),
    bind_of_ok (stepOver_apply _), pure_apply]

theorem leaf_of_error {g : Get α} {c : Cursor} {e : Error} {t : Source}
    (hreadable : Readable c.frames) (h : g c.source = .error e t) :
    leaf g c = .error e { c with source := t } := by
  rw [leaf, bind_of_ok (checkReadable_of_readable hreadable),
    bind_of_error (fromSource_of_error h)]

theorem element_leaf {g : Get α} (h : g.Finds bs a) : Element (leaf g) levels bs a := by
  intro fs hfs c rest hc
  have hreadable : Readable c.frames := hc.frames ▸ hfs
  refine ⟨c.lastId, ?_⟩
  rw [leaf_of_ok hreadable (h _ _ hc.memory hc.left), ← hc.frames]
  rfl

/-- Numbers are read as the policy of the cursor has it. -/
theorem element_leaf_by {g : DecodePolicy → Get α}
    (h : ∀ policy, policy ≠ .exact → (g policy).Finds bs a) :
    Element (do leaf (g (← get).policy)) levels bs a := by
  intro fs hfs c rest hc
  exact element_leaf (h c.policy hc.policy) _ hfs _ _ hc

/-! ### Scopes -/

theorem pushFrame_of_room {c : Cursor} (kind : Container) (n : Nat)
    (h : c.frames.length < c.maxDepth) :
    pushFrame kind n c = .ok (c.lastId + 1)
      { c with frames := .opened kind (c.lastId + 1) n :: c.frames, lastId := c.lastId + 1 } := by
  rw [pushFrame, bind_apply, get_apply]
  dsimp only
  rw [if_neg (Nat.not_le.mpr h)]
  rfl

theorem pushFrame_of_full {c : Cursor} (kind : Container) (n : Nat)
    (h : c.maxDepth ≤ c.frames.length) :
    pushFrame kind n c = .error (.recursionLimit (.openScopes c.maxDepth)) c := by
  rw [pushFrame, bind_apply, get_apply]
  dsimp only
  rw [if_pos h]
  rfl

/-- The reader of the headers of one kind. -/
def headerOf : Container → Get Nat
  | .array => Get.arrayHeader
  | .map => Get.mapHeader

theorem beginScope_of_error {kind : Container} {c : Cursor} {e : Error} {t : Source}
    (hreadable : Readable c.frames) (h : headerOf kind c.source = .error e t) :
    beginScope kind c = .error e { c with source := t } := by
  have hheader := fromSource_of_error h
  cases kind <;>
    exact (bind_of_ok (checkReadable_of_readable hreadable)).trans (bind_of_error hheader)

/-- The places that a container of `n` elements or entries has. -/
def places : Container → (n : Nat) → Nat
  | .array, n => n
  | .map, n => 2 * n

/-- A container counts as an element around it before its own scope opens. -/
theorem beginScope_of_ok {kind : Container} {c : Cursor} {n : Nat} {t : Source}
    (hreadable : Readable c.frames) (h : headerOf kind c.source = .ok n t) :
    beginScope kind c = pushFrame kind (places kind n) { c with
      source := t
      frames := c.frames.modifyHead Frame.stepped } := by
  have hheader := fromSource_of_ok h
  cases kind <;>
    exact (bind_of_ok (checkReadable_of_readable hreadable)).trans
      ((bind_of_ok hheader).trans (bind_of_ok (stepOver_apply _)))

theorem headerOf_of_opening {kind : Container} {header rest : Bytes} {s : Source} {n : Nat}
    (h : kind.Opening header n) (hl : s.left = header ++ rest) :
    ∃ k, headerOf kind s = .ok k (s.advance header.length) ∧ places kind k = n := by
  cases kind with
  | array => exact ⟨n, Get.accepts_arrayHeader.complete hl h, rfl⟩
  | map =>
      obtain ⟨k, hheader, rfl⟩ := h
      exact ⟨k, Get.accepts_mapHeader.complete hl hheader, rfl⟩

theorem beginScope_of_opening {kind : Container} {header rest : Bytes} {n : Nat} {c : Cursor}
    (h : kind.Opening header n) (hreadable : Readable c.frames)
    (hl : c.source.left = header ++ rest) :
    beginScope kind c = pushFrame kind n { c with
      source := c.source.advance header.length
      frames := c.frames.modifyHead Frame.stepped } := by
  obtain ⟨k, hheader, rfl⟩ := headerOf_of_opening h hl
  exact beginScope_of_ok hreadable hheader

theorem beginScope_of_room {kind : Container} {header rest : Bytes} {n : Nat} {c : Cursor}
    (h : kind.Opening header n) (hreadable : Readable c.frames)
    (hl : c.source.left = header ++ rest) (hroom : c.frames.length < c.maxDepth) :
    beginScope kind c = .ok (c.lastId + 1) (c.moved header.length
      (.opened kind (c.lastId + 1) n :: c.frames.modifyHead Frame.stepped) (c.lastId + 1)) := by
  rw [beginScope_of_opening h hreadable hl,
    pushFrame_of_room kind n ((length_modifyHead ..).symm ▸ hroom)]
  rfl

/-- A container, whose content is read in a scope of its own. -/
theorem element_scope {kind : Container} {n : Nat} {header body : Bytes} {f : Nat → Step α}
    (hopening : kind.Opening header n)
    (hbody : ∀ key outer, Reads (f key) (.opened kind key n :: outer) outer levels body a) :
    Element (beginScope kind >>= f) (levels + 1) (header ++ body) a := by
  intro fs hfs c rest hc
  have hleft : c.source.left = header ++ (body ++ rest) := by rw [hc.left, List.append_assoc]
  have hroom : c.frames.length < c.maxDepth := by
    have := hc.room
    rw [hc.frames]
    omega
  have hopen := beginScope_of_room hopening (hc.frames ▸ hfs) hleft hroom
  rw [hc.frames] at hopen
  have hinside : Ready (c.moved header.length
      (.opened kind (c.lastId + 1) n :: fs.modifyHead Frame.stepped) (c.lastId + 1))
      (.opened kind (c.lastId + 1) n :: fs.modifyHead Frame.stepped) levels body rest := by
    refine hc.moved ?_ _
    rw [List.length_cons, length_modifyHead]
    omega
  obtain ⟨id, hid⟩ := hbody (c.lastId + 1) _ _ _ hinside
  refine ⟨id, ?_⟩
  rw [bind_of_ok hopen, hid, moved_moved, List.length_append]

theorem element_array {n : Nat} {header body : Bytes} {f : Nat → Step α}
    (hheader : Grammar.ArrayHeader header n)
    (hbody : ∀ key outer, Reads (f key) (.opened .array key n :: outer) outer levels body a) :
    Element (beginScope .array >>= f) (levels + 1) (header ++ body) a :=
  element_scope hheader hbody

theorem element_map {n : Nat} {header body : Bytes} {f : Nat → Step α}
    (hheader : Grammar.MapHeader header n)
    (hbody : ∀ key outer, Reads (f key) (.opened .map key (2 * n) :: outer) outer levels body a) :
    Element (beginScope .map >>= f) (levels + 1) (header ++ body) a :=
  element_scope ⟨n, hheader, rfl⟩ hbody

theorem innermost_of_frames {c : Cursor} {f : Frame} (h : c.frames = f :: outer) :
    innermost c = .ok f c := by
  rw [innermost, bind_apply, get_apply]
  dsimp only
  rw [h]
  rfl

theorem modifyInnermost_of_frames {c : Cursor} {f : Frame} (change : Frame → Frame)
    (h : c.frames = f :: outer) :
    modifyInnermost change c = .ok () { c with frames := change f :: outer } := by
  rw [modifyInnermost, modify_apply, h]

theorem elemLeft_of_frames {c : Cursor} {f : Frame} (h : c.frames = f :: outer) :
    elemLeft c = .ok f.remaining c := by
  rw [elemLeft, bind_of_ok (innermost_of_frames h), pure_apply]

theorem reads_elemLeft (f : Frame) (outer : List Frame) :
    Reads elemLeft (f :: outer) (f :: outer) levels [] f.remaining := by
  intro c rest hc
  refine ⟨c.lastId, ?_⟩
  rw [List.length_nil, moved_zero hc.frames, elemLeft_of_frames hc.frames]

/-- A scope that was read to its end closes without passing over anything. -/
theorem endScope_of_frames {c : Cursor} {kind : Container} {key : Nat}
    (h : c.frames = .opened kind key 0 :: outer) :
    endScope kind key c = .ok () { c with frames := outer } := by
  -- the scope to close is the innermost one, and nothing is left in it
  have hupTo : scopesUpTo kind key c = .ok 1 c := by
    simp [scopesUpTo, bind_apply, h, Frame.opened, List.findIdx?_cons]
  have hclose : closeInnermost c.strict c = .ok () { c with frames := outer } := by
    simp [closeInnermost, drainWith, innermost, levelsLeft, bind_apply, h, Frame.opened, times]
  rw [endScope, bind_of_ok hupTo, bind_apply, get_apply]
  simp [times, bind_apply, hclose]

theorem reads_endScope (kind : Container) (key : Nat) (outer : List Frame) :
    Reads (endScope kind key) (.opened kind key 0 :: outer) outer levels [] () := fun c _ hc =>
  ⟨c.lastId, endScope_of_frames hc.frames⟩

/-- What is read to the end of a scope, with the scope closed behind it. -/
theorem Reads.closing {kind : Container} {key n : Nat} {step : Step α}
    (h : Reads step (.opened kind key n :: outer) (.opened kind key 0 :: outer) levels bs a) :
    Reads (do let x ← step; endScope kind key; return x) (.opened kind key n :: outer) outer levels
      bs a := by
  refine h.andThen ?_ (Nat.le_refl _)
  exact (reads_endScope kind key outer).andThen (.pure a) (Nat.le_succ _)

/-- A container, with its content read by one step. -/
def inScope (kind : Container) (body : Step α) : Step α := do
  let key ← beginScope kind
  let a ← body
  endScope kind key
  return a

theorem element_inScope {kind : Container} {n : Nat} {header body : Bytes} {step : Step α}
    (hopening : kind.Opening header n)
    (h : ∀ key outer, Reads step (.opened kind key n :: outer) (.opened kind key 0 :: outer)
      levels body a) : Element (inScope kind step) (levels + 1) (header ++ body) a :=
  element_scope hopening fun key outer => (h key outer).closing

end Cursor

end MsgPack
