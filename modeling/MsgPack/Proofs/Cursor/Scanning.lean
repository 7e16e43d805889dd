import MsgPack.Proofs.Cursor.Building
import MsgPack.Proofs.Cursor.Reads
import MsgPack.Proofs.Wire.Scanning

/-!
The calls on a cursor look at nothing behind what they consume, and so neither
does the reading of an object. What a cursor does besides reading depends on its
scopes and its settings, which two runs side by side share.
-/

namespace MsgPack

theorem LeafReader.scans {streams : Prop} {α : Type} {g : Get α} (h : LeafReader streams g) :
    Scans streams 1 g := by
  cases h with
  | nil => exact Get.scans_nil
  | bool => exact Get.scans_bool
  | number => exact Get.scans_anyNumber
  | int policy t => exact Get.scans_int policy t
  | float policy p => exact Get.scans_float policy p
  | text hs => exact Get.scans_takeText hs
  | binary hs => exact Get.scans_takeBinary hs
  | extension hs => exact Get.scans_takeExtension hs

instance : Fed Cursor := ⟨Cursor.source, fun s c => { c with source := s }, fun _ _ => rfl⟩

namespace Cursor

variable {streams : Prop} {α β : Type} {n least : Nat}

/-! ### Reading -/

theorem scans_fromSource {g : Get α} (h : Scans streams n g) : Scans streams n (fromSource g) := by
  intro c s s' hs hs' hfront
  cases h s s s' hs hs' hfront with
  | ok a _ k hleast hk hrun hrun' =>
      exact .ok a c k hleast hk (fromSource_of_ok hrun) (fromSource_of_ok hrun')
  | short a _ t k e hleast hk hlong hrun hrun' =>
      exact .short a c (feed t c) k e hleast hk hlong (fromSource_of_ok hrun)
        (fromSource_of_error hrun')
  | error e e' t t' hrun hrun' hkind =>
      exact .error e e' (feed t c) (feed t' c) (fromSource_of_error hrun)
        (fromSource_of_error hrun') hkind

theorem peeks_marker : Peeks (fromSource Get.marker) where
  cons c s b rest hl := fromSource_of_ok (Get.peeks_marker.cons s s b rest hl)
  nil c s hl := by
    obtain ⟨e, t, hrun⟩ := Get.peeks_marker.nil s s hl
    exact ⟨e, feed t c, fromSource_of_error hrun⟩

theorem typeNext_eq : typeNext = (do
    let m ← fromSource Get.marker
    match m.code.entity? with
    | some e => return e
    | none => throw (.unexpectedFormat (.marker .anyValue m))) := by
  funext c
  cases hrun : Get.marker c.source with
  | error e s =>
      rw [bind_of_error (fromSource_of_error hrun)]
      exact fromSource_of_error (bind_of_error hrun)
  | ok m s =>
      rw [bind_of_ok (fromSource_of_ok hrun)]
      cases he : m.code.entity? with
      | some e => exact fromSource_of_ok ((bind_of_ok hrun).trans (by rw [he]; rfl))
      | none => exact fromSource_of_error ((bind_of_ok hrun).trans (by rw [he]; rfl))

theorem scans_typeNext {f : EntityType → Step α} (hf : ∀ e, Scans streams (n + 1) (f e)) :
    Scans streams (n + 1) (typeNext >>= f) := by
  rw [typeNext_eq, bind_assoc]
  refine peeks_marker.scans fun m => ?_
  cases m.code.entity? with
  | some e => exact hf e
  | none => exact .throw _

/-! ### Scopes -/

theorem scans_innermost : Scans streams 0 innermost := by
  refine .consult (fun _ _ => rfl) fun c => ?_
  split
  · exact .throw _
  · exact .pure _

theorem scans_levelsLeft : Scans streams 0 levelsLeft :=
  .consult (fun _ _ => rfl) fun _ => .consult (fun _ _ => rfl) fun _ => .pure _

theorem scans_tooDeep : Scans streams least (tooDeep : Step α) :=
  .consult (fun _ _ => rfl) fun _ => .throw _

theorem scans_checkReadable : Scans streams 0 checkReadable := by
  refine .consult (fun _ _ => rfl) fun c => ?_
  split
  · exact .pure ()
  · split
    · exact .throw _
    · split
      · exact .throw _
      · exact .pure ()

theorem scans_modifyInnermost (change : Frame → Frame) :
    Scans streams 0 (modifyInnermost change) := by
  refine .modify fun c s => ?_
  obtain ⟨policy, maxDepth, strict, source, frames, lastId⟩ := c
  cases frames <;> rfl

theorem scans_pushFrame (kind : Container) (elems : Nat) :
    Scans streams 0 (pushFrame kind elems) := by
  intro c s s' _ _ _
  by_cases hroom : c.frames.length < c.maxDepth
  · let opened : Cursor := { c with
      frames := .opened kind (c.lastId + 1) elems :: c.frames
      lastId := c.lastId + 1 }
    have hpush : ∀ t, pushFrame kind elems (feed t c) = .ok (c.lastId + 1) (feed t opened) :=
      fun _ => pushFrame_of_room kind elems hroom
    exact .ok _ opened 0 (Nat.le_refl 0) (Nat.zero_le _) (hpush s) (hpush s')
  · have hpush : ∀ t, pushFrame kind elems (feed t c) = .error _ (feed t c) :=
      fun _ => pushFrame_of_full kind elems (Nat.le_of_not_lt hroom)
    exact .error _ _ _ _ (hpush s) (hpush s') (.inl rfl)

theorem scans_beginScope (kind : Container) : Scans streams 1 (beginScope kind) := by
  have hopen : ∀ n, Scans streams 0 (do stepOver; pushFrame kind n) := fun n =>
    (scans_modifyInnermost _).bind fun _ => scans_pushFrame kind n
  refine Scans.before scans_checkReadable fun _ => ?_
  cases kind with
  | array => exact (scans_fromSource (Get.scans_length _ _)).andThen fun n => hopen n
  | map => exact (scans_fromSource (Get.scans_length _ _)).andThen fun n => hopen (2 * n)

theorem scans_announceKey : Scans streams 0 announceKey := by
  refine Scans.before scans_innermost fun f => ?_
  split
  · exact .throw _
  · split
    · exact .throw _
    · split
      · exact .throw _
      · exact scans_modifyInnermost _

theorem scans_leaf {g : Get α} (h : Scans streams n g) : Scans streams n (leaf g) :=
  Scans.before scans_checkReadable fun _ => (scans_fromSource h).andThen fun a =>
    (scans_modifyInnermost _).map fun _ => a

/-! ### Passing over elements -/

theorem scans_drainWith {one : Step Unit} (h : Scans streams n one) :
    Scans streams 0 (drainWith one) := by
  refine Scans.before scans_innermost fun f => ?_
  have hone : Scans streams n (do announceSkipped; one) :=
    Scans.before (scans_modifyInnermost _) fun _ => h
  exact (hone.times f.remaining).bind fun _ => .modify fun _ _ => rfl

theorem scans_skipWith {one : Step Unit} (h : Scans streams n one) :
    Scans streams 1 (skipWith one) := by
  have hcontainer : ∀ kind, Scans streams 1 (do discard (beginScope kind); drainWith one) :=
    fun kind => (scans_beginScope kind).discard.andThen fun _ => scans_drainWith h
  refine peeks_marker.scans fun m => ?_
  split
  · exact hcontainer .array
  · exact hcontainer .map
  · exact (scans_fromSource Get.scans_skipLeaf).andThen fun _ => scans_modifyInnermost _
  · exact scans_fromSource (Get.scans_refuse _ m)

theorem scans_skipWithin (levels : Nat) : Scans streams 1 (skipWithin levels) := by
  induction levels with
  | zero => exact scans_skipWith (n := 0) scans_tooDeep
  | succ levels ih => exact scans_skipWith ih

theorem scans_skip : Scans streams 1 skip :=
  Scans.before scans_checkReadable fun _ => Scans.before scans_levelsLeft scans_skipWithin

theorem scans_closeInnermost (strict : Bool) : Scans streams 0 (closeInnermost strict) := by
  refine Scans.before scans_innermost fun f => ?_
  split
  · exact .throw _
  · exact Scans.before scans_levelsLeft fun levels => scans_drainWith (scans_skipWithin levels)

theorem scans_scopesUpTo (kind : Container) (key : Int) :
    Scans streams 0 (scopesUpTo kind key) := by
  refine .consult (fun _ _ => rfl) fun c => ?_
  dsimp only
  split
  · exact .throw _
  · split
    · split
      · exact .pure _
      · exact .throw _
    · exact .throw _

theorem scans_endScope (kind : Container) (key : Int) : Scans streams 0 (endScope kind key) :=
  Scans.before (scans_scopesUpTo kind key) fun k => .consult (fun _ _ => rfl) fun c =>
    (scans_closeInnermost c.strict).times k

/-! ### Whatever is built of calls -/

theorem Built.scans {step : Step α} (h : Built streams least step) :
    Scans streams least step := by
  induction h with
  | pure a => exact .pure a
  | throw e => exact .throw e
  | bind _ _ ih ihf => exact ih.bind ihf
  | mono _ hle ih => exact ih.mono hle
  | consult hf _ ih => exact .consult hf ih
  | look _ ih => exact scans_typeNext ih
  | enter kind => exact scans_beginScope kind
  | leave kind key => exact scans_endScope kind key
  | key => exact scans_announceKey
  | skip => exact scans_skip
  | leaf hg => exact scans_leaf hg.scans

end Cursor

theorem Schema.scans_restore {streams : Prop} (s : Schema) (hs : streams → s.owning) (x : s.Val) :
    Scans streams 1 (s.restore x) :=
  (s.built_restore hs x).scans

end MsgPack
