import MsgPack.Proofs.Cursor.Keeping
import MsgPack.Proofs.Cursor.Passing

/-!
The changes that calls are made of. Whatever a call does, and wherever it fails,
it goes from one cursor to the next by reading on in the source, by changing
counters of the innermost scope, by opening a scope or by closing one. What such
changes keep holds wherever a call leads, and the cursors on the way there can
be listed.
-/

namespace MsgPack

/-- The scope is the same one, and no element has been put back. Its
announcement is of the key that comes next, if that of `f` is. -/
structure Frame.Alters (f g : Frame) : Prop where
  id : g.id = f.id
  kind : g.kind = f.kind
  remaining : g.remaining ≤ f.remaining
  settled : f.Settled → g.Settled

namespace Cursor

variable {α : Type} {p : Cursor → Prop} {c d e : Cursor} {trail : List Cursor}

/-! ### Changes -/

/-- One change, of the source or of the open scopes. -/
inductive Change : Cursor → Cursor → Prop
  | source (c : Cursor) (s : Source) : Change c { c with source := s }
  | altered {c : Cursor} {f g : Frame} {outer : List Frame} (hframes : c.frames = f :: outer)
      (h : f.Alters g) : Change c { c with frames := g :: outer }
  | opened {c : Cursor} (kind : Container) (n : Nat) (hroom : c.frames.length < c.maxDepth) :
      Change c { c with
        frames := .opened kind (c.lastId + 1) n :: c.frames
        lastId := c.lastId + 1 }
  | popped (c : Cursor) : Change c { c with frames := c.frames.tail }

/-- What holds of a cursor survives each change. -/
def Closed (p : Cursor → Prop) : Prop := ∀ c d, Change c d → p c → p d

/-- A key is announced where one comes next, or the cursor stays as it is. -/
theorem announceKey_cases (c : Cursor) :
    (∃ e, announceKey c = .error e c) ∨
      ∃ f outer, c.frames = f :: outer ∧ f.atKey = true ∧
        announceKey c = .ok () { c with frames := { f with keyPending := true } :: outer } := by
  cases hframes : c.frames with
  | nil =>
      refine .inl ⟨.readerContext .noScope, ?_⟩
      simp [announceKey, innermost, bind_apply, hframes, refuse]
  | cons f outer =>
      rw [announceKey, bind_of_ok (innermost_of_frames hframes)]
      by_cases hkind : f.kind = .map
      · rw [if_neg (not_not_intro hkind)]
        by_cases hodd : f.remaining % 2 = 1
        · exact .inl ⟨_, by rw [if_pos hodd]; rfl⟩
        · rw [if_neg hodd]
          by_cases hpending : f.keyPending = true
          · exact .inl ⟨_, by rw [if_pos hpending]; rfl⟩
          · rw [if_neg hpending]
            have heven : f.remaining % 2 = 0 := by omega
            refine .inr ⟨f, outer, rfl, ?_, modifyInnermost_of_frames _ hframes⟩
            simp [Frame.atKey, hkind, heven]
      · exact .inl ⟨_, by rw [if_pos hkind]; rfl⟩

namespace Closed

variable (h : Closed p)

include h

theorem fromSource (g : Get α) : Keeps p p (fromSource g) := by
  intro c hc
  rw [Cursor.fromSource]
  split
  · exact .ok (h _ _ (.source c _) hc)
  · exact .error (h _ _ (.source c _) hc)

theorem modifyInnermost {change : Frame → Frame} (hchange : ∀ f : Frame, f.Alters (change f)) :
    Keeps p p (modifyInnermost change) := by
  intro c hc
  cases hframes : c.frames with
  | nil =>
      rw [Cursor.modifyInnermost, modify_apply, hframes]
      exact .ok hc
  | cons f outer =>
      rw [modifyInnermost_of_frames _ hframes]
      exact .ok (h _ _ (.altered hframes (hchange f)) hc)

theorem stepOver : Keeps p p stepOver := by
  refine h.modifyInnermost fun f => ⟨rfl, rfl, Nat.sub_le .., fun hf hpending => ?_⟩
  -- an announcement is used up or was none
  have hpending : f.atKey = false ∧ f.keyPending = true := by simpa using hpending
  exact absurd (hf hpending.2) (by rw [hpending.1]; exact Bool.false_ne_true)

theorem stepOverSkipped : Keeps p p stepOverSkipped :=
  h.modifyInnermost fun f => ⟨rfl, rfl, Nat.sub_le .., fun _ => f.settled_passed⟩

theorem leaf (g : Get α) : Keeps p p (leaf g) :=
  Looks.checkReadable.keeps.bind fun _ => (h.fromSource g).bind fun a =>
    h.stepOver.bind fun _ => .pure a

theorem announceKey : Keeps p p announceKey := by
  intro c hc
  obtain ⟨e, hfail⟩ | ⟨f, outer, hframes, hkey, hdone⟩ := announceKey_cases c
  · rw [hfail]
    exact .error hc
  · rw [hdone]
    exact .ok (h _ _ (.altered hframes ⟨rfl, rfl, Nat.le_refl _, fun _ _ => hkey⟩) hc)

theorem pushFrame (kind : Container) (n : Nat) : Keeps p p (pushFrame kind n) := by
  intro c hc
  by_cases hroom : c.frames.length < c.maxDepth
  · rw [pushFrame_of_room kind n hroom]
    exact .ok (h _ _ (.opened kind n hroom) hc)
  · rw [pushFrame_of_full kind n (Nat.le_of_not_lt hroom)]
    exact .error hc

theorem beginScope (kind : Container) : Keeps p p (beginScope kind) := by
  have hopen : ∀ (header : Get Nat) (size : Nat → Nat), Keeps p p (do
      let n ← Cursor.fromSource header
      Cursor.stepOver
      Cursor.pushFrame kind (size n)) := fun header size =>
    (h.fromSource header).bind fun n => h.stepOver.bind fun _ => h.pushFrame kind (size n)
  refine Looks.checkReadable.keeps.bind fun _ => ?_
  cases kind with
  | array => exact hopen _ id
  | map => exact hopen _ (2 * ·)

theorem drainWith {one : Step Unit} (hone : Keeps p p one) : Keeps p p (drainWith one) := by
  have hannounce : Keeps p p announceSkipped := by
    refine h.modifyInnermost fun f => ⟨rfl, rfl, Nat.le_refl _, fun hf hpending => ?_⟩
    have hor : f.atKey = true ∨ f.keyPending = true := by simpa using hpending
    exact hor.elim id hf
  refine Looks.innermost.keeps.bind fun f => ?_
  refine ((hannounce.bind fun _ => hone).times f.remaining).bind fun _ => ?_
  exact fun c hc => .ok (h _ _ (.popped c) hc)

theorem skipWithin (levels : Nat) : Keeps p p (skipWithin levels) := by
  have hwith : ∀ {one : Step Unit}, Keeps p p one → Keeps p p (skipWith one) := by
    intro one hone
    refine (h.fromSource _).bind fun m => ?_
    split
    · exact ((h.beginScope .array).bind fun _ => .pure ()).bind fun _ => h.drainWith hone
    · exact ((h.beginScope .map).bind fun _ => .pure ()).bind fun _ => h.drainWith hone
    · exact (h.fromSource _).bind fun _ => h.stepOverSkipped
    · exact h.fromSource _
  induction levels with
  | zero => exact hwith Looks.tooDeep.keeps
  | succ levels ih => exact hwith ih

theorem closeInnermost (strict : Bool) : Keeps p p (closeInnermost strict) := by
  refine Looks.innermost.keeps.bind fun f => ?_
  split
  · exact (Looks.throw _).keeps
  · exact Looks.levelsLeft.keeps.bind fun levels => h.drainWith (h.skipWithin levels)

theorem kept : Kept p p where
  weaken _ := id
  enter := h.beginScope
  leave kind key := (Looks.scopesUpTo kind key).keeps.bind fun n =>
    Looks.get.keeps.bind fun c => (h.closeInnermost c.strict).times n
  key := h.announceKey
  skip := Looks.checkReadable.keeps.bind fun _ => Looks.levelsLeft.keeps.bind h.skipWithin
  leaf g _ := h.leaf g

end Closed

/-! ### Ways -/

/-- Changes in a row that lead from one cursor to another. The trail is of the
cursors on the way, both ends included, the last one first. Between calls a
cursor may be given other limits. -/
inductive Way (c : Cursor) : List Cursor → Cursor → Prop
  | rest : Way c [c] c
  | change {trail : List Cursor} {d e : Cursor} (h : Way c trail d) (hchange : Change d e) :
      Way c (e :: trail) e
  | configured {trail : List Cursor} {d : Cursor} (h : Way c trail d) (maxDepth : Nat)
      (strict : Bool) :
      Way c ({ d with maxDepth, strict } :: trail) { d with maxDepth, strict }

/-- What changes keep holds on the whole way. -/
theorem Way.all (h : Way c trail d) (hp : Closed p)
    (hconfigured : ∀ (c : Cursor) (maxDepth : Nat) (strict : Bool), p c →
      p { c with maxDepth, strict }) (hc : p c) : p d ∧ ∀ e ∈ trail, p e := by
  induction h with
  | rest => exact ⟨hc, by simpa using hc⟩
  | change _ hchange ih =>
      have he := hp _ _ hchange ih.1
      exact ⟨he, List.forall_mem_cons.mpr ⟨he, ih.2⟩⟩
  | configured _ maxDepth strict ih =>
      have he := hconfigured _ maxDepth strict ih.1
      exact ⟨he, List.forall_mem_cons.mpr ⟨he, ih.2⟩⟩

/-- Calls lead where there is a way, and what changes keep holds all along it. -/
theorem Closed.way (hp : Closed p) (c : Cursor) :
    Closed fun d => ∃ trail, Way c trail d ∧ ∀ e ∈ trail, p e := by
  rintro d e hchange ⟨trail, hway, htrail⟩
  have hd : p d := htrail d (by cases hway <;> simp)
  exact ⟨e :: trail, hway.change hchange, List.forall_mem_cons.mpr ⟨hp d e hchange hd, htrail⟩⟩

end Cursor

end MsgPack
