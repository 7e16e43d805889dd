import MsgPack.Proofs.Cursor.Elements
import MsgPack.Proofs.Cursor.Passing
import MsgPack.Proofs.Wire.ByValue
import MsgPack.Wire.Timestamp

/-!
Steps of a cursor that see of a value no more than what it is. Such a step ends
in the same way on whatever bytes spell the value, on any source and wherever an
element may be read: with the same answer and the bytes behind it, or with an
error of the same kind. What is read inside a container is described likewise,
between two states of its scope.
-/

namespace MsgPack.Cursor

open Grammar (Derives DerivesElems DerivesEntries)

variable {α β : Type} {fs fs' fs'' outer : List Frame} {levels : Nat} {L L₁ L₂ : Bytes → Prop}
  {step : Step α} {r : Except ErrorKind α}

/-- The scopes `fs` are open, there may be `levels` more, and `bs` is what comes
next, on whatever source. Numbers are widened. -/
structure Before (c : Cursor) (fs : List Frame) (levels : Nat) (bs rest : Bytes) : Prop where
  left : c.source.left = bs ++ rest
  frames : c.frames = fs
  room : fs.length + levels ≤ c.maxDepth
  policy : c.policy = .widening

/-- On a string of `L` the step ends as told, with the string behind it and the
scopes `fs'` open in place of `fs`. -/
def Ends (step : Step α) (fs fs' : List Frame) (levels : Nat) (L : Bytes → Prop)
    (r : Except ErrorKind α) : Prop :=
  ∀ (c : Cursor) (bs rest : Bytes), L bs → c.Before fs levels bs rest →
    Ended (step c) (fun c' => ∃ lastId, c' = c.moved bs.length fs' lastId) r

/-- Strings of `L₁`, each with one of `L₂` behind it. -/
def Then (L₁ L₂ : Bytes → Prop) (bs : Bytes) : Prop := ∃ xs ys, bs = xs ++ ys ∧ L₁ xs ∧ L₂ ys

def Empty (bs : Bytes) : Prop := bs = []

theorem then_empty {bs : Bytes} (h : L bs) : Then L Empty bs :=
  ⟨bs, [], (List.append_nil bs).symm, h, rfl⟩

theorem empty_then {bs : Bytes} (h : L bs) : Then Empty L bs := ⟨[], bs, rfl, rfl, h⟩

theorem Before.moved {c : Cursor} {bs bs' rest : Bytes} (h : c.Before fs levels (bs ++ bs') rest)
    (hlen : fs'.length ≤ fs.length) (lastId : Nat) :
    (c.moved bs.length fs' lastId).Before fs' levels bs' rest where
  left := Source.left_advance_length (by rw [h.left, List.append_assoc])
  frames := rfl
  room := Nat.le_trans (Nat.add_le_add_right hlen levels) h.room
  policy := h.policy

theorem Before.front {c : Cursor} {bs bs' rest : Bytes}
    (h : c.Before fs levels (bs ++ bs') rest) : c.Before fs levels bs (bs' ++ rest) :=
  { h with left := by rw [h.left, List.append_assoc] }

namespace Ends

theorem pure (a : α) : Ends (pure a) fs fs levels Empty (.ok a) := by
  rintro c _ rest rfl hc
  exact .ok rfl ⟨c.lastId, (moved_zero hc.frames).symm⟩

theorem throw (e : Error) : Ends (throw e : Step α) fs fs' levels L (.error e.kind) :=
  fun _ _ _ _ _ => .error rfl rfl

theorem mono (h : Ends step fs fs' levels L₁ r) (hL : ∀ bs, L bs → L₁ bs) :
    Ends step fs fs' levels L r := fun c bs rest hbs hc => h c bs rest (hL bs hbs) hc

theorem bind {f : α → Step β} {a : α} {r : Except ErrorKind β}
    (h : Ends step fs fs' levels L₁ (.ok a)) (hf : Ends (f a) fs' fs'' levels L₂ r)
    (hlen : fs'.length ≤ fs.length) : Ends (step >>= f) fs fs'' levels (Then L₁ L₂) r := by
  rintro c _ rest ⟨xs, ys, rfl, hxs, hys⟩ hc
  cases h c xs _ hxs hc.front with
  | ok hstep ht =>
      obtain ⟨id, rfl⟩ := ht
      have hnext := hf _ ys rest hys (hc.moved hlen id)
      rw [bind_of_ok hstep]
      cases hnext with
      | ok hrest ht =>
          obtain ⟨id', rfl⟩ := ht
          exact .ok hrest ⟨id', by rw [moved_moved, List.length_append]⟩
      | error hrest hk => exact .error hrest hk

theorem bind_error {f : α → Step β} {k : ErrorKind} (h : Ends step fs fs' levels L₁ (.error k)) :
    Ends (step >>= f) fs fs'' levels (Then L₁ L₂) (.error k) := by
  rintro c _ rest ⟨xs, ys, rfl, hxs, hys⟩ hc
  cases h c xs _ hxs hc.front with
  | error hstep hk => exact .error (bind_of_error hstep) hk

/-- A step that consumes nothing, after one that does. -/
theorem andThen {f : α → Step β} {a : α} {r : Except ErrorKind β}
    (h : Ends step fs fs' levels L (.ok a)) (hf : Ends (f a) fs' fs'' levels Empty r)
    (hlen : fs'.length ≤ fs.length) : Ends (step >>= f) fs fs'' levels L r :=
  (h.bind hf hlen).mono fun _ => then_empty

theorem andThen_error {f : α → Step β} {k : ErrorKind}
    (h : Ends step fs fs' levels L (.error k)) : Ends (step >>= f) fs fs'' levels L (.error k) :=
  h.bind_error.mono fun _ => then_empty

theorem typeNext {e : EntityType} {f : EntityType → Step α} (h : Ends (f e) fs fs' levels L r)
    (hL : ∀ bs, L bs → Begins bs e) : Ends (typeNext >>= f) fs fs' levels L r := by
  intro c bs rest hbs hc
  rw [bind_of_ok (typeNext_of_begins (hL bs hbs) hc.left)]
  exact h c bs rest hbs hc

end Ends

/-! ### Elements -/

/-- The step ends in the same way on everything that spells the same value. -/
def ByValue (step : Step α) : Prop :=
  ∀ (v : OwnedValue) (levels : Nat), ∃ r, ∀ fs : List Frame, Readable fs →
    Ends step fs (fs.modifyHead Frame.stepped) levels (Derives levels · v) r

/-- The step reads nothing, and its answer is the same everywhere. -/
def Silent (step : Step α) : Prop := ∃ r, ∀ fs levels, Ends step fs fs levels Empty r

namespace Silent

theorem pure (a : α) : Silent (pure a) := ⟨_, fun _ _ => .pure a⟩

theorem throw (e : Error) : Silent (throw e : Step α) := ⟨_, fun _ _ => .throw e⟩

theorem ofExcept (x : Except Error α) : Silent (Get.ofExcept x) := by
  cases x with
  | ok a => exact .pure a
  | error e => exact .throw e

theorem map (h : Silent step) (f : α → β) : Silent (do return f (← step)) := by
  obtain ⟨r, hr⟩ := h
  cases r with
  | error k => exact ⟨.error k, fun fs levels => (hr fs levels).andThen_error⟩
  | ok a => exact ⟨.ok (f a), fun fs levels => (hr fs levels).andThen (.pure (f a)) (Nat.le_refl _)⟩

end Silent

namespace ByValue

theorem throw (e : Error) : ByValue (throw e : Step α) := fun _ _ => ⟨_, fun _ _ => .throw e⟩

theorem leaf {g : Get α} (h : g.ByValue) : ByValue (leaf g) := by
  intro v levels
  obtain ⟨r, hr⟩ := h v
  refine ⟨r, fun fs hfs c bs rest hbs hc => ?_⟩
  have hreadable : Readable c.frames := hc.frames ▸ hfs
  cases hr levels c.source bs rest hbs hc.left with
  | ok hg ht =>
      refine .ok ?_ ⟨c.lastId, rfl⟩
      rw [leaf_of_ok hreadable hg, ht, ← hc.frames]
      rfl
  | error hg hk => exact .error (leaf_of_error hreadable hg) hk

/-- What was read may be looked at. -/
theorem andThen {f : α → Step β} (h : ByValue step) (hf : ∀ a, Silent (f a)) :
    ByValue (step >>= f) := by
  intro v levels
  obtain ⟨r, hr⟩ := h v levels
  cases r with
  | error k => exact ⟨.error k, fun fs hfs => (hr fs hfs).andThen_error⟩
  | ok a =>
      obtain ⟨r, hr'⟩ := hf a
      exact ⟨r, fun fs hfs =>
        (hr fs hfs).andThen (hr' _ levels) (Nat.le_of_eq (length_modifyHead _ _))⟩

theorem map (h : ByValue step) (f : α → β) : ByValue (do return f (← step)) :=
  h.andThen fun a => .pure (f a)

theorem congr {step' : Step α} (h : ByValue step')
    (heq : ∀ c : Cursor, c.policy = .widening → step c = step' c) : ByValue step := by
  intro v levels
  obtain ⟨r, hr⟩ := h v levels
  refine ⟨r, fun fs hfs c bs rest hbs hc => ?_⟩
  rw [heq c hc.policy]
  exact hr fs hfs c bs rest hbs hc

/-- What comes next may be looked at first. -/
theorem typeNext {f : EntityType → Step α} (h : ∀ e, ByValue (f e)) :
    ByValue (typeNext >>= f) := by
  intro v levels
  obtain ⟨r, hr⟩ := h v.entity v levels
  exact ⟨r, fun fs hfs => (hr fs hfs).typeNext fun _ => begins_of_derives⟩

theorem text : ByValue (text .owned) := leaf Get.byValue_text

theorem binary : ByValue (binary .owned) := leaf Get.byValue_binary

theorem extension : ByValue (extension .owned) := leaf Get.byValue_extension

/-- Where there are no levels left, the complaint is the same everywhere. -/
theorem tooDeep : ByValue (tooDeep : Step α) :=
  fun _ _ => ⟨.error .recursionLimit, fun _ _ _ _ _ _ _ => .error rfl rfl⟩

end ByValue

/-! ### Inside a scope -/

/-- The step ends in the same way on every string of `L`, with the innermost
scope as `f` has it before and as `f'` has it after. Scopes are given up to
their numbers. -/
def Within (step : Step α) (f f' : Nat → Frame) (levels : Nat) (L : Bytes → Prop) : Prop :=
  ∃ r, ∀ (key : Nat) (outer : List Frame),
    Ends step (f key :: outer) (f' key :: outer) levels L r

section Within

variable {f f' f'' : Nat → Frame} {kind : Container} {n m : Nat}

theorem Within.pure (a : α) : Within (pure a) f f levels Empty := ⟨_, fun _ _ => .pure a⟩

theorem Within.throw (e : Error) : Within (throw e : Step α) f f' levels L :=
  ⟨_, fun _ _ => .throw e⟩

theorem Within.mono (h : Within step f f' levels L₁) (hL : ∀ bs, L bs → L₁ bs) :
    Within step f f' levels L := by
  obtain ⟨r, hr⟩ := h
  exact ⟨r, fun key outer => (hr key outer).mono hL⟩

theorem Within.bind {next : α → Step β} (h : Within step f f' levels L₁)
    (hnext : ∀ a, Within (next a) f' f'' levels L₂) :
    Within (step >>= next) f f'' levels (Then L₁ L₂) := by
  obtain ⟨r, hr⟩ := h
  cases r with
  | error k => exact ⟨.error k, fun key outer => (hr key outer).bind_error⟩
  | ok a =>
      obtain ⟨r, hr'⟩ := hnext a
      exact ⟨r, fun key outer => (hr key outer).bind (hr' key outer) (Nat.le_refl _)⟩

theorem Within.map (h : Within step f f' levels L) (g : α → β) :
    Within (do return g (← step)) f f' levels L :=
  (h.bind fun a => .pure (g a)).mono fun _ => then_empty

/-- A step that consumes nothing, before one that does. -/
theorem Within.skipTo {next : α → Step β} {a : α}
    (h : ∀ key outer, Ends step (f key :: outer) (f' key :: outer) levels Empty (.ok a))
    (hnext : Within (next a) f' f'' levels L) : Within (step >>= next) f f'' levels L := by
  obtain ⟨r, hr⟩ := hnext
  exact ⟨r, fun key outer =>
    ((h key outer).bind (hr key outer) (Nat.le_refl _)).mono fun _ => empty_then⟩

theorem Within.elemLeft {next : Nat → Step α}
    (h : Within (next n) (.opened kind · n) f' levels L) :
    Within (elemLeft >>= next) (.opened kind · n) f' levels L := by
  refine .skipTo (fun key outer => ?_) h
  rintro c _ rest rfl hc
  exact .ok (elemLeft_of_frames hc.frames) ⟨c.lastId, (moved_zero hc.frames).symm⟩

theorem Within.announceKey {next : Unit → Step α}
    (h : Within (next ()) (announced · n) f' levels L) :
    Within (announceKey >>= next) (.opened .map · (2 * (n + 1))) f' levels L := by
  refine .skipTo (fun key outer => ?_) h
  rintro c _ rest rfl hc
  exact .ok (announceKey_of_frames hc.frames) ⟨c.lastId, rfl⟩

theorem ByValue.inArray (h : ByValue step) (v : OwnedValue) (n : Nat) :
    Within step (.opened .array · (n + 1)) (.opened .array · n) levels (Derives levels · v) := by
  obtain ⟨r, hr⟩ := h v levels
  exact ⟨r, fun key outer => hr _ (readable_array key n outer)⟩

theorem ByValue.asKey (h : ByValue step) (v : OwnedValue) (n : Nat) :
    Within step (announced · n) (.opened .map · (2 * n + 1)) levels (Derives levels · v) := by
  obtain ⟨r, hr⟩ := h v levels
  refine ⟨r, fun key outer => ?_⟩
  have hends := hr _ (readable_announced key n outer)
  rwa [List.modifyHead_cons, stepped_announced] at hends

theorem ByValue.asValue (h : ByValue step) (v : OwnedValue) (n : Nat) :
    Within step (.opened .map · (2 * n + 1)) (.opened .map · (2 * n)) levels
      (Derives levels · v) := by
  obtain ⟨r, hr⟩ := h v levels
  refine ⟨r, fun key outer => ?_⟩
  have hends := hr _ (readable_odd key n outer)
  rwa [List.modifyHead_cons, stepped_odd] at hends

/-- Any value can be passed over. -/
theorem Within.skip (v : OwnedValue) (n : Nat) :
    Within skip (.opened .map · (2 * n + 1)) (.opened .map · (2 * n)) levels
      (Derives levels · v) := by
  refine ⟨.ok (), fun key outer c bs rest hbs hc => ?_⟩
  obtain ⟨node, rfl, hnode, hheight⟩ := Node.of_derives hbs
  have hreadable : Readable c.frames := hc.frames ▸ readable_odd key n outer
  have hsettled : SettledIn c.frames := by
    rw [hc.frames]
    exact fun h => Bool.noConfusion h
  have hroom := hc.room
  have hpass := passes_skipWithin (c.maxDepth - c.frames.length) node c rest hnode hreadable
    hsettled hc.left (by omega)
  rw [skip_of_readable hreadable]
  -- within the levels that the value needs there is room for it
  obtain ⟨c', hrun, hpast⟩ := hpass.of_room (by rw [hc.frames]; omega)
  rw [hrun]
  rw [hc.frames] at hpast
  exact .ok rfl ⟨c'.lastId, hpast.eq_moved⟩

end Within

end MsgPack.Cursor
