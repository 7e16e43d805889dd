import MsgPack.Proofs.Cursor.Building
import MsgPack.Proofs.Cursor.Reads

/-!
What the calls on a cursor keep, everything keeps that is built of them: the
reading of a whole object, whatever its schema is, however far it gets.
-/

namespace MsgPack

/-- The readers of single leaves take whole leaves, or leave what is of another
kind. -/
theorem LeafReader.ofLeaves {streams : Prop} {α : Type} {g : Get α} (h : LeafReader streams g) :
    g.OfLeaves := by
  cases h with
  | nil => exact ⟨Get.whole_nil, Get.mild_nil⟩
  | bool => exact ⟨Get.whole_bool, Get.mild_bool⟩
  | number => exact Get.ofLeaves_number
  | int policy t => exact Get.ofLeaves_int policy t
  | float policy p => exact Get.ofLeaves_float policy p
  | text _ => exact Get.ofLeaves_text _
  | binary _ => exact Get.ofLeaves_binary _
  | extension _ => exact Get.ofLeaves_extension _

namespace Cursor

variable {α β : Type} {p q : Cursor → Prop} {step : Step α}

/-- Where a step leads to: `p` holds there if it succeeded, and `q` if it
failed. -/
inductive LeadsTo (p q : Cursor → Prop) : EStateM.Result Error Cursor α → Prop
  | ok {a : α} {c : Cursor} (h : p c) : LeadsTo p q (.ok a c)
  | error {e : Error} {c : Cursor} (h : q c) : LeadsTo p q (.error e c)

/-- From where `p` holds the step leads to where `p` holds, and to where `q`
holds if it fails. -/
def Keeps (p q : Cursor → Prop) (step : Step α) : Prop := ∀ c, p c → LeadsTo p q (step c)

/-- The step leaves the cursor as it is, with or without success. -/
def Looks (step : Step α) : Prop :=
  ∀ c, (∃ a, step c = .ok a c) ∨ ∃ e, step c = .error e c

namespace Looks

theorem pure (a : α) : Looks (pure a) := fun _ => .inl ⟨a, rfl⟩

theorem throw (e : Error) : Looks (throw e : Step α) := fun _ => .inr ⟨e, rfl⟩

theorem bind {f : α → Step β} (h : Looks step) (hf : ∀ a, Looks (f a)) : Looks (step >>= f) := by
  intro c
  obtain ⟨a, hstep⟩ | ⟨e, hstep⟩ := h c
  · rw [bind_of_ok hstep]
    exact hf a c
  · exact .inr ⟨e, bind_of_error hstep⟩

theorem get : Looks (get : Step Cursor) := fun c => .inl ⟨c, rfl⟩

theorem innermost : Looks innermost := by
  refine get.bind fun c => ?_
  split
  · exact .throw _
  · exact .pure _

theorem levelsLeft : Looks levelsLeft := get.bind fun _ => get.bind fun _ => .pure _

theorem tooDeep : Looks (tooDeep : Step α) := get.bind fun _ => .throw _

theorem checkReadable : Looks checkReadable := by
  refine get.bind fun c => ?_
  split
  · exact .pure _
  · split
    · exact .throw _
    · split
      · exact .throw _
      · exact .pure _

theorem scopesUpTo (kind : Container) (key : Int) : Looks (scopesUpTo kind key) := by
  refine get.bind fun c => ?_
  dsimp only
  split
  · exact .throw _
  · split
    · split
      · exact .pure _
      · exact .throw _
    · exact .throw _

/-- What comes next is told by a byte that stays where it is. -/
theorem typeNext : Looks typeNext := by
  intro c
  cases hmarker : Get.marker c.source with
  | error e s =>
      have hs : s = c.source := by
        cases hl : c.source.left with
        | nil =>
            cases hk : c.source.kind <;> simp [Get.marker, bind_apply, Get.peek, hl, hk] at hmarker <;>
              exact hmarker.2.symm
        | cons b rest => cases (Get.marker_cons hl).symm.trans hmarker
      subst hs
      exact .inr ⟨e, fromSource_of_error (bind_of_error hmarker)⟩
  | ok m s =>
      obtain rfl := Get.still_marker _ _ _ hmarker
      cases he : m.code.entity? with
      | some e => exact .inl ⟨e, typeNext_of_marker hmarker he⟩
      | none => exact .inr ⟨_, typeNext_of_unknown hmarker he⟩

end Looks

namespace Keeps

theorem of_looks (hpq : ∀ c, p c → q c) (h : Looks step) : Keeps p q step := by
  intro c hc
  obtain ⟨a, hstep⟩ | ⟨e, hstep⟩ := h c
  · rw [hstep]
    exact .ok hc
  · rw [hstep]
    exact .error (hpq c hc)

theorem ok {a : α} {c c' : Cursor} (h : Keeps p q step) (hc : p c) (hstep : step c = .ok a c') :
    p c' := by
  have hled := h c hc
  rw [hstep] at hled
  cases hled with
  | ok hc' => exact hc'

theorem error {e : Error} {c c' : Cursor} (h : Keeps p q step) (hc : p c)
    (hstep : step c = .error e c') : q c' := by
  have hled := h c hc
  rw [hstep] at hled
  cases hled with
  | error hc' => exact hc'

theorem bind {f : α → Step β} (h : Keeps p q step) (hf : ∀ a, Keeps p q (f a)) :
    Keeps p q (step >>= f) := by
  intro c hc
  rw [bind_apply]
  cases hstep : step c with
  | ok a c' => exact hf a c' (h.ok hc hstep)
  | error e c' => exact .error (h.error hc hstep)

theorem pure (a : α) : Keeps p q (pure a) := fun _ hc => .ok hc

theorem map (h : Keeps p q step) (f : α → β) : Keeps p q (do return f (← step)) :=
  h.bind fun a => .pure (f a)

theorem congr {step' : Step α} (h : Keeps p q step') (hstep : ∀ c, step c = step' c) :
    Keeps p q step := by
  intro c hc
  rw [hstep c]
  exact h c hc

theorem collect (h : Keeps p q step) (n : Nat) : Keeps p q (collect step n) := by
  induction n with
  | zero => exact .pure []
  | succ n ih =>
      rw [collect_succ]
      exact h.bind fun a => ih.map (a :: ·)

theorem times {step : Step Unit} (h : Keeps p q step) (n : Nat) : Keeps p q (times step n) := by
  induction n with
  | zero => exact .pure ()
  | succ n ih => exact h.bind fun _ => ih

end Keeps

theorem Looks.keeps (h : Looks step) : Keeps p p step := .of_looks (fun _ => id) h

/-! ### Calls -/

/-- All calls keep `p`, and lead to where `q` holds if they fail. Of the readers
of single entities these are the ones that take whole leaves. -/
structure Kept (p q : Cursor → Prop) : Prop where
  weaken : ∀ c, p c → q c
  enter : ∀ kind, Keeps p q (beginScope kind)
  leave : ∀ kind key, Keeps p q (endScope kind key)
  key : Keeps p q announceKey
  skip : Keeps p q skip
  leaf : ∀ {α : Type} (g : Get α), g.OfLeaves → Keeps p q (leaf g)

theorem Kept.looks (h : Kept p q) (hstep : Looks step) : Keeps p q step :=
  .of_looks h.weaken hstep

/-- What all calls keep, a step that is built of them keeps. -/
theorem Built.keeps {streams : Prop} {least : Nat} (hstep : Built streams least step)
    (h : Kept p q) : Keeps p q step := by
  induction hstep with
  | pure a => exact .pure a
  | throw e => exact h.looks (.throw e)
  | bind _ _ ih ihf => exact ih.bind ihf
  | mono _ _ ih => exact ih
  | consult _ _ ih => exact (h.looks .get).bind ih
  | look _ ih => exact (h.looks .typeNext).bind ih
  | enter kind => exact h.enter kind
  | leave kind key => exact h.leave kind key
  | key => exact h.key
  | skip => exact h.skip
  | leaf hg => exact h.leaf _ hg.ofLeaves

end Cursor

/-- What all calls keep, the reading of an object keeps. -/
theorem Schema.keeps_restore {p q : Cursor → Prop} (h : Cursor.Kept p q) (s : Schema) (x : s.Val) :
    Cursor.Keeps p q (s.restore x) :=
  (s.built_restore False.elim x).keeps h

end MsgPack
