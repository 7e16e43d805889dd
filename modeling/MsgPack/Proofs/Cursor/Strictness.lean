import MsgPack.Proofs.Cursor.Relocating

/-!
Scopes may be closed strictly or not, and a step that leaves nothing unread does
not notice which. Such a step, run on two cursors that differ in their
strictness alone, answers the same and leaves the same behind. Only the end of a
scope looks at the strictness, and at the end of a scope that has been read
through there is nothing left to look at it for.
-/

namespace MsgPack.Cursor

variable {α β : Type} {step : Step α} {fs outer : List Frame} {kind : Container}

/-- The end of a run, with the strictness set to what is given. -/
def endStrict (strict : Bool) :
    EStateM.Result Error Cursor α → EStateM.Result Error Cursor α
  | .ok a c => .ok a { c with strict }
  | .error e c => .error e { c with strict }

/-- With the scopes `fs` open the step takes no notice of the strictness, which
stays as it is, whether or not the step succeeds. -/
def HeedlessAt (fs : List Frame) (step : Step α) : Prop :=
  ∀ (c : Cursor) (strict : Bool), c.frames = fs →
    step { c with strict } = endStrict strict (step c)

/-- The step takes no notice of the strictness anywhere. -/
def Heedless (step : Step α) : Prop := ∀ fs, HeedlessAt fs step

namespace HeedlessAt

/-- The scopes that the first step leaves open are those that the second one
starts with. -/
theorem bind {f : α → Step β} (h : HeedlessAt fs step)
    (hf : ∀ c a t, c.frames = fs → step c = .ok a t → HeedlessAt t.frames (f a)) :
    HeedlessAt fs (step >>= f) := by
  intro c strict hc
  rw [bind_apply, bind_apply, h c strict hc]
  cases hstep : step c with
  | ok a t => exact hf c a t hc hstep t strict rfl
  | error e t => rfl

theorem elemLeft {key n : Nat} {f : Nat → Step α}
    (h : HeedlessAt (.opened kind key n :: outer) (f n)) :
    HeedlessAt (.opened kind key n :: outer) (elemLeft >>= f) := by
  refine bind (fun c strict hc => ?_) fun c m t hc hleft => ?_
  · rw [elemLeft_of_frames hc, elemLeft_of_frames (c := { c with strict }) hc]
    rfl
  · cases (elemLeft_of_frames hc).symm.trans hleft
    exact hc ▸ h

/-- A scope that has been read through is closed in strict mode as it is
otherwise. -/
theorem endScope (kind : Container) (key : Nat) (outer : List Frame) :
    HeedlessAt (.opened kind key 0 :: outer) (endScope kind key) := by
  intro c strict hc
  rw [endScope_of_frames hc, endScope_of_frames (c := { c with strict }) hc]
  rfl

/-- What is read to the end of a scope, with the scope closed behind it. -/
theorem closing {key : Nat} (h : HeedlessAt fs step)
    (hends : Carries [] step step fs (.opened kind key 0 :: outer) fs
      (.opened kind key 0 :: outer)) :
    HeedlessAt fs (do let x ← step; Cursor.endScope kind key; return x) := by
  refine h.bind fun c a t hc hstep => ?_
  have hosts : Hosts [] c c := ⟨rfl, rfl, (List.append_nil _).symm, Nat.le_refl _⟩
  obtain ⟨n, id, -, -, rfl, -⟩ := hends c c t a hc hc hosts hstep
  exact (endScope kind key outer).bind fun _ _ _ _ _ _ _ _ => rfl

end HeedlessAt

namespace Heedless

theorem pure (a : α) : Heedless (pure a) := fun _ _ _ _ => rfl

theorem throw (e : Error) : Heedless (throw e : Step α) := fun _ _ _ _ => rfl

theorem bind {f : α → Step β} (h : Heedless step) (hf : ∀ a, Heedless (f a)) :
    Heedless (step >>= f) :=
  fun fs => (h fs).bind fun _ a t _ _ => hf a t.frames

theorem map (h : Heedless step) (f : α → β) : Heedless (do return f (← step)) :=
  h.bind fun a => .pure (f a)

/-- The cursor may be asked for all but its strictness. -/
theorem consult {f : Cursor → Step α} (h : ∀ c, Heedless (f c))
    (hf : ∀ c strict, f { c with strict } = f c) : Heedless (get >>= f) := by
  intro fs c strict hc
  rw [bind_apply, bind_apply, get_apply, get_apply]
  dsimp only
  rw [hf]
  exact h c fs c strict hc

theorem modify {change : Cursor → Cursor}
    (h : ∀ c strict, change { c with strict } = { change c with strict }) :
    Heedless (modify change) := by
  intro fs c strict _
  rw [modify_apply, modify_apply, h]
  rfl

theorem fromSource (g : Get α) : Heedless (fromSource g) := by
  intro fs c strict _
  rw [Cursor.fromSource, Cursor.fromSource]
  dsimp only
  cases g c.source <;> rfl

theorem ofExcept (x : Except Error α) : Heedless (Get.ofExcept x : Step α) := by
  cases x with
  | ok a => exact .pure a
  | error e => exact .throw e

theorem times {step : Step Unit} (h : Heedless step) (n : Nat) : Heedless (times step n) := by
  induction n with
  | zero => exact .pure ()
  | succ n ih => exact h.bind fun _ => ih

theorem collect (h : Heedless step) (n : Nat) : Heedless (collect step n) := by
  induction n with
  | zero => exact .pure []
  | succ n ih =>
      rw [collect_succ]
      exact h.bind fun a => ih.map (a :: ·)

/-! ### Calls -/

theorem innermost : Heedless innermost := by
  refine consult (fun c => ?_) fun _ _ => rfl
  split
  · exact throw _
  · exact pure _

theorem modifyInnermost (change : Frame → Frame) : Heedless (modifyInnermost change) := by
  refine modify fun c strict => ?_
  dsimp only
  split <;> rfl

theorem checkReadable : Heedless checkReadable := by
  refine consult (fun c => ?_) fun _ _ => rfl
  split
  · exact pure ()
  · split
    · exact throw _
    · split
      · exact throw _
      · exact pure ()

theorem tooDeep : Heedless (tooDeep : Step α) := consult (fun _ => throw _) fun _ _ => rfl

/-- How many levels are left is another question. -/
theorem levelsLeft {f : Nat → Step α} (h : ∀ n, Heedless (f n)) :
    Heedless (levelsLeft >>= f) :=
  fun fs c strict hc => h (c.maxDepth - c.frames.length) fs c strict hc

theorem typeNext : Heedless typeNext := fromSource _

theorem leaf (g : Get α) : Heedless (leaf g) :=
  checkReadable.bind fun _ => (fromSource g).bind fun a => (modifyInnermost _).bind fun _ => pure a

theorem announceKey : Heedless announceKey := by
  refine innermost.bind fun f => ?_
  split
  · exact throw _
  · split
    · exact throw _
    · split
      · exact throw _
      · exact modifyInnermost _

theorem pushFrame (kind : Container) (n : Nat) : Heedless (pushFrame kind n) := by
  intro fs c strict _
  by_cases hroom : c.frames.length < c.maxDepth
  · rw [pushFrame_of_room kind n hroom, pushFrame_of_room (c := { c with strict }) kind n hroom]
    rfl
  · have hfull := Nat.le_of_not_lt hroom
    rw [pushFrame_of_full kind n hfull, pushFrame_of_full (c := { c with strict }) kind n hfull]
    rfl

theorem beginScope (kind : Container) : Heedless (beginScope kind) := by
  cases kind <;>
    exact checkReadable.bind fun _ => (fromSource _).bind fun n =>
      (modifyInnermost _).bind fun _ => pushFrame _ _

/-! ### Elements that are passed over

The scopes inside them are opened and left without being closed by number, so
that the strictness never comes in. -/

theorem drainWith {one : Step Unit} (h : Heedless one) : Heedless (drainWith one) :=
  innermost.bind fun _ => (times ((modifyInnermost _).bind fun _ => h) _).bind fun _ =>
    modify fun _ _ => rfl

theorem skipWith {one : Step Unit} (h : Heedless one) : Heedless (skipWith one) := by
  refine (fromSource _).bind fun m => ?_
  split
  · exact ((beginScope .array).map fun _ => ()).bind fun _ => drainWith h
  · exact ((beginScope .map).map fun _ => ()).bind fun _ => drainWith h
  · exact (fromSource _).bind fun _ => modifyInnermost _
  · exact fromSource _

theorem skipWithin (levels : Nat) : Heedless (skipWithin levels) := by
  induction levels with
  | zero => exact skipWith tooDeep
  | succ levels ih => exact skipWith ih

theorem skip : Heedless skip := checkReadable.bind fun _ => levelsLeft skipWithin

/-! ### Scopes that are read through -/

/-- A container, given what is read inside it. -/
theorem scope (kind : Container) {f : Nat → Step α}
    (h : ∀ key n outer, HeedlessAt (.opened kind key (places kind n) :: outer) (f key)) :
    Heedless (Cursor.beginScope kind >>= f) := by
  refine fun fs => (beginScope kind fs).bind fun c key t _ hbegin => ?_
  obtain ⟨-, -, -, header, _, rest, hopening, -, rfl⟩ := beginScope_inv hbegin
  obtain ⟨n, rfl⟩ := Carries.exists_places hopening
  exact h key n _

theorem elements (h : Heedless step) (hstep : Portable [] step step) :
    Heedless (elements step) :=
  scope .array fun key n outer => .elemLeft <| (h.collect n _).closing <|
    Carries.collect (.opened .array key · :: outer) (.opened .array key · :: outer)
      (hstep.inArray key key) n

theorem entries {val : Step β} (h : Heedless step) (hval : Heedless val)
    (hkeys : Portable [] step step) (hvals : Portable [] val val) :
    Heedless (entries step val) := by
  refine scope .map fun key n outer => .elemLeft ?_
  have hentry : Heedless (do Cursor.announceKey; return (← step, ← val)) :=
    announceKey.bind fun _ => h.bind fun a => hval.map (a, ·)
  rw [places, Nat.mul_div_cancel_left n Nat.two_pos]
  exact (hentry.collect n _).closing <|
    Carries.collect (fun n => .opened .map key (2 * n) :: outer)
      (fun n => .opened .map key (2 * n) :: outer) (hkeys.asEntry hvals key key) n

theorem valueWith {storage : Storage} {inside : Step OwnedValue} (h : Heedless inside)
    (hinside : Portable [] inside inside) : Heedless (valueWith storage inside) := by
  refine typeNext.bind fun e => ?_
  cases e with
  | null => exact (leaf _).map fun _ => Value.nil
  | boolean => exact (leaf _).map Value.bool
  | integer => exact (leaf _).map Value.number
  | floatingPoint => exact (leaf _).map Value.number
  | string => exact (leaf _).map Value.string
  | binary => exact (leaf _).map Value.binary
  | extension => exact (leaf _).map fun e : Extension => Value.extension e.type e.data
  | array => exact (elements h hinside).map Value.array
  | map => exact (entries h h hinside hinside).map Value.map

theorem valueWithin (storage : Storage) (levels : Nat) : Heedless (valueWithin storage levels) := by
  induction levels with
  | zero => exact valueWith tooDeep .tooDeep
  | succ levels ih => exact valueWith ih (.valueWithin (Nat.le_refl levels))

theorem value (storage : Storage) : Heedless (value storage) := levelsLeft (valueWithin storage)

end Heedless

end MsgPack.Cursor
