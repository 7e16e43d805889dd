import MsgPack.Proofs.Cursor.Mirroring

/-!
A cursor with exact numbers covers the readers of entities: where a reader
answers, the step answers the same and leaves the same, or complains that the
nesting is too deep. Nothing is said where the reader fails, since the step may
know more encodings than the reader does.
-/

namespace MsgPack.Cursor

variable {α β γ : Type} {deep : Prop} {fs fs' fs'' outer : List Frame} {limit : Nat}

/-- What a step under the cursor `c` comes to where a reader answers `a` and
leaves the source `t`: the same, the scopes `fs` being open, or one scope too
many, where the nesting may be too deep. -/
inductive Covered (deep : Prop) (c : Cursor) (fs : List Frame) (a : α) (t : Source)
    (r : EStateM.Result Error Cursor α) : Prop
  | same (lastId : Nat) (h : r = .ok a { c with source := t, frames := fs, lastId })
  | tooDeep {e : Error} {c' : Cursor} (hdeep : deep) (h : r = .error e c')
      (he : e.kind = .recursionLimit)

/-- With the scopes `fs` open of `limit` that there may be, the step answers
wherever the reader does, and leaves the scopes `fs'` open. -/
def Covers (deep : Prop) (step : Step α) (g : Get α) (fs fs' : List Frame) (limit : Nat) : Prop :=
  ∀ (c : Cursor) (a : α) (t : Source), c.policy = .exact → c.frames = fs → c.maxDepth = limit →
    g c.source = .ok a t → Covered deep c fs' a t (step c)

namespace Covers

variable {step : Step α} {g : Get α}

theorem congr {step' : Step α} (h : Covers deep step' g fs fs' limit)
    (heq : ∀ c : Cursor, c.policy = .exact → step c = step' c) :
    Covers deep step g fs fs' limit := by
  intro c a t hp hfs hlimit hg
  rw [heq c hp]
  exact h c a t hp hfs hlimit hg

theorem pure (a : α) : Covers deep (pure a) (pure a) fs fs limit := by
  rintro c a t - rfl - ⟨⟩
  exact .same c.lastId rfl

theorem bind {k : α → Step β} {k' : α → Get β} (h : Covers deep step g fs fs' limit)
    (hk : ∀ a, Covers deep (k a) (k' a) fs' fs'' limit) :
    Covers deep (step >>= k) (g >>= k') fs fs'' limit := by
  intro c b u hp hfs hlimit hg
  obtain ⟨a, t, hg, hrest⟩ := bind_eq_ok_iff.mp hg
  cases h c a t hp hfs hlimit hg with
  | tooDeep hdeep h he => exact .tooDeep hdeep (bind_of_error h) he
  | same id h =>
      rw [bind_of_ok h]
      cases hk a { c with source := t, frames := fs', lastId := id } b u hp rfl hlimit hrest with
      | tooDeep hdeep h he => exact .tooDeep hdeep h he
      | same id' h => exact .same id' h

theorem map (h : Covers deep step g fs fs' limit) (f : α → β) :
    Covers deep (do return f (← step)) (do return f (← g)) fs fs' limit :=
  h.bind fun a => .pure (f a)

/-- A step that reads nothing, before one that covers the reader. -/
theorem quiet {first : Step γ} {x : γ} {k : γ → Step α}
    (hfirst : ∀ c : Cursor, c.frames = fs → first c = .ok x { c with frames := fs' })
    (h : Covers deep (k x) g fs' fs'' limit) : Covers deep (first >>= k) g fs fs'' limit := by
  intro c a t hp hfs hlimit hg
  rw [bind_of_ok (hfirst c hfs)]
  cases h { c with frames := fs' } a t hp rfl hlimit hg with
  | tooDeep hdeep h he => exact .tooDeep hdeep h he
  | same id h => exact .same id h

theorem elemLeft {first : Frame} {k : Nat → Step α}
    (h : Covers deep (k first.remaining) g (first :: outer) fs' limit) :
    Covers deep (elemLeft >>= k) g (first :: outer) fs' limit := by
  refine h.quiet fun c hc => ?_
  rw [elemLeft_of_frames hc, ← hc]

/-- What is read to the end of a scope, with the scope closed behind it. -/
theorem closing {kind : Container} {key : Nat}
    (h : Covers deep step g fs (.opened kind key 0 :: outer) limit) :
    Covers deep (do let x ← step; endScope kind key; return x) g fs outer limit := by
  rw [← bind_pure g]
  exact h.bind fun a => (Covers.pure a).quiet fun c hc => endScope_of_frames hc

theorem leaf (hfs : Readable fs) (g : Get α) :
    Covers deep (leaf g) g fs (fs.modifyHead Frame.stepped) limit := by
  rintro c a t - rfl - hg
  exact .same c.lastId (leaf_of_ok hfs hg)

/-- A leaf that is looked at when it has been read, by a reader that finds it
there. -/
theorem checked {leafReader : Get β} {check : β → Except Error α} (hfs : Readable fs)
    (h : ∀ s a t, g s = .ok a t → ∃ b, leafReader s = .ok b t ∧ check b = .ok a) :
    Covers deep (do Get.ofExcept (check (← Cursor.leaf leafReader))) g fs
      (fs.modifyHead Frame.stepped) limit := by
  rintro c a t - rfl - hg
  obtain ⟨b, hread, hcheck⟩ := h c.source a t hg
  refine .same c.lastId ?_
  rw [bind_of_ok (leaf_of_ok hfs hread), hcheck]
  rfl

/-! ### Containers -/

/-- A container, which is refused where there is no room for one. -/
theorem scope (kind : Container) {k : Nat → Step α} {k' : Nat → Get α} (hfs : Readable fs)
    (hdeep : limit ≤ fs.length → deep)
    (h : ∀ key n, Covers deep (k key) (k' n)
      (.opened kind key (places kind n) :: fs.modifyHead Frame.stepped)
      (fs.modifyHead Frame.stepped) limit) :
    Covers deep (beginScope kind >>= k) (headerOf kind >>= k') fs (fs.modifyHead Frame.stepped)
      limit := by
  rintro c a t hp rfl rfl hg
  obtain ⟨n, s, hheader, hrest⟩ := bind_eq_ok_iff.mp hg
  have hbegin := beginScope_of_ok hfs hheader
  by_cases hroom : c.frames.length < c.maxDepth
  · rw [pushFrame_of_room kind _ ((length_modifyHead ..).symm ▸ hroom)] at hbegin
    rw [bind_of_ok hbegin]
    cases h (c.lastId + 1) n { c with
        source := s
        frames := .opened kind (c.lastId + 1) (places kind n) :: c.frames.modifyHead Frame.stepped
        lastId := c.lastId + 1 } a t hp rfl rfl hrest with
    | tooDeep hdeep h he => exact .tooDeep hdeep h he
    | same id h => exact .same id h
  · have hfull := Nat.le_of_not_lt hroom
    rw [pushFrame_of_full kind _ ((length_modifyHead ..).symm ▸ hfull)] at hbegin
    exact .tooDeep (hdeep hfull) (bind_of_error hbegin) rfl

/-- A step that is repeated takes the open scopes from one stage to the next. -/
theorem collect (stage : Nat → List Frame)
    (h : ∀ n, Covers deep step g (stage (n + 1)) (stage n) limit) (n : Nat) :
    Covers deep (collect step n) (MsgPack.collect g n) (stage n) (stage 0) limit := by
  induction n with
  | zero => exact .pure []
  | succ n ih =>
      rw [collect_succ, collect_succ]
      exact (h n).bind fun a => ih.map (a :: ·)

/-- The reader is covered with one more scope open. -/
abbrev Inside (deep : Prop) (fs : List Frame) (limit : Nat) (step : Step α) (g : Get α) : Prop :=
  ∀ inside : List Frame, inside.length = fs.length + 1 → Readable inside →
    Covers deep step g inside (inside.modifyHead Frame.stepped) limit

theorem elements (hfs : Readable fs) (hdeep : limit ≤ fs.length → deep)
    (h : Inside deep fs limit step g) :
    Covers deep (elements step) (do MsgPack.collect g (← Get.arrayHeader)) fs
      (fs.modifyHead Frame.stepped) limit := by
  refine scope .array hfs hdeep fun key n => .elemLeft ?_
  have hcollect := collect (fun n => .opened .array key n :: fs.modifyHead Frame.stepped)
    fun n => h _ (congrArg (· + 1) (length_modifyHead ..)) (readable_array key n _)
  exact (hcollect n).closing

theorem entries {val : Step β} {g' : Get β} (hfs : Readable fs) (hdeep : limit ≤ fs.length → deep)
    (hk : Inside deep fs limit step g) (hv : Inside deep fs limit val g') :
    Covers deep (entries step val) (do MsgPack.collect (do return (← g, ← g')) (← Get.mapHeader)) fs
      (fs.modifyHead Frame.stepped) limit := by
  refine scope .map hfs hdeep fun key n => .elemLeft ?_
  have hlength : ∀ first : Frame, (first :: fs.modifyHead Frame.stepped).length = fs.length + 1 :=
    fun _ => congrArg (· + 1) (length_modifyHead ..)
  -- an entry takes two of the places, the first of them announced
  have hentry : ∀ n, Covers deep (do announceKey; return (← step, ← val))
      (do return (← g, ← g'))
      (.opened .map key (2 * (n + 1)) :: fs.modifyHead Frame.stepped)
      (.opened .map key (2 * n) :: fs.modifyHead Frame.stepped) limit := by
    intro n
    have hkey := hk _ (hlength _) (readable_announced key n (fs.modifyHead Frame.stepped))
    have hvalue := hv _ (hlength _) (readable_odd key n (fs.modifyHead Frame.stepped))
    rw [List.modifyHead_cons, stepped_announced] at hkey
    rw [List.modifyHead_cons, stepped_odd] at hvalue
    refine quiet (fun c hc => announceKey_of_frames hc) ?_
    exact hkey.bind fun a => hvalue.map (a, ·)
  have hcollect := collect (fun n => .opened .map key (2 * n) :: fs.modifyHead Frame.stepped) hentry
  have htotal : (Frame.opened .map key (places .map n)).remaining / 2 = n :=
    Nat.mul_div_cancel_left n Nat.two_pos
  rw [htotal]
  exact (hcollect n).closing

theorem arity {n found : Nat} (h : found = n → Covers deep step g fs fs' limit) :
    Covers deep (do checkArity n found; step) (do checkArity n found; g) fs fs' limit := by
  by_cases hfound : found = n
  · have hpasses {σ : Type} : (checkArity n found : EStateM Error σ Unit) = Pure.pure () :=
      if_pos hfound
    rw [hpasses, hpasses, pure_bind, pure_bind]
    exact h hfound
  · have hrefused : (checkArity n found : Get Unit) = throw _ := if_neg hfound
    rw [hrefused]
    rintro c a t - - - ⟨⟩

theorem tuple {n : Nat} (hfs : Readable fs) (hdeep : limit ≤ fs.length → deep)
    (h : ∀ key, Covers deep step g (.opened .array key n :: fs.modifyHead Frame.stepped)
      (.opened .array key 0 :: fs.modifyHead Frame.stepped) limit) :
    Covers deep (restoreTuple n step) (do checkArity n (← Get.arrayHeader); g) fs
      (fs.modifyHead Frame.stepped) limit := by
  refine scope .array hfs hdeep fun key found => .elemLeft (.arity ?_)
  rintro rfl
  exact (h key).closing

/-- A look at what comes next tells nil from everything else. -/
theorem option (hfs : Readable fs)
    (hknown : ∀ s a t m, g s = .ok a t → Get.marker s = .ok m s → ∃ e, m.code.entity? = some e)
    (h : Covers deep step g fs (fs.modifyHead Frame.stepped) limit) :
    Covers deep
      (do
        match ← typeNext with
        | .null =>
          Cursor.leaf Get.nil
          return none
        | _ => return some (← step))
      (do
        let m ← Get.marker
        match m.code with
        | .nil => Get.after (Pure.pure none)
        | _ => return some (← g))
      fs (fs.modifyHead Frame.stepped) limit := by
  intro c x t hp hframes hlimit hg
  obtain ⟨m, s, hmarker, hrest⟩ := bind_eq_ok_iff.mp hg
  obtain rfl := Get.still_marker _ _ _ hmarker
  by_cases hcode : m.code = .nil
  · -- the marker of nil is the whole of it
    have hentity : m.code.entity? = some .null := by rw [hcode]; rfl
    rw [hcode] at hrest
    have hnil : (do Get.nil; return none : Get (Option α)) c.source = .ok x t := by
      rw [Get.nil, bind_assoc, bind_of_ok hmarker, hcode, ← hrest]
      simp only [Get.after, bind_assoc, pure_bind]
    rw [bind_of_ok (typeNext_of_marker hmarker hentity)]
    exact ((leaf hfs Get.nil).map fun _ => none) c x t hp hframes hlimit hnil
  · have hmatch : (match m.code with
          | .nil => Get.after (Pure.pure none)
          | _ => do return some (← g)) = (do return some (← g) : Get (Option α)) := by
      split
      · contradiction
      · rfl
    have hsome : (do return some (← g) : Get (Option α)) c.source = .ok x t :=
      (congrFun hmatch c.source).symm.trans hrest
    obtain ⟨a, s, hread, -⟩ := bind_eq_ok_iff.mp hsome
    obtain ⟨e, he⟩ := hknown _ a s m hread hmarker
    have hother : e ≠ .null := by
      rintro rfl
      cases hm : m.code <;> rw [hm] at he hcode <;> first | exact hcode rfl | cases he
    rw [bind_of_ok (typeNext_of_marker hmarker he)]
    have hstep := (h.map some) c x t hp hframes hlimit hsome
    cases e with
    | null => exact absurd rfl hother
    | _ => exact hstep

end Covers

end MsgPack.Cursor
