import MsgPack.Proofs.Cursor.Closing
import MsgPack.Proofs.Cursor.Requests

/-!
The numbers of scopes as keys. A scope has its place over the scopes that were
open when it was opened, and it is the same scope for as long as there are more
open scopes than those. Its number belongs to it alone, before and after.
-/

namespace MsgPack.Cursor

variable {c d opened new : Cursor} {f : Frame} {outer : List Frame} {kind kind' : Container}
  {key level : Nat} {trail : List Cursor} {before later : List Request}

/-! ### The place of a scope -/

/-- The scope that was opened over `level` others is open on the whole way: at
no time are there only those others. -/
def StaysOpen (level : Nat) (trail : List Cursor) : Prop := ∀ d ∈ trail, level < d.depth

/-- The scope over `level` others has got the number and is of the kind. -/
def Stands (level key : Nat) (kind : Container) (c : Cursor) : Prop :=
  ∃ inner g outer, c.frames = inner ++ g :: outer ∧ outer.length = level ∧ g.id = key ∧
    g.kind = kind

theorem Stands.depth (h : Stands level key kind c) : level < c.depth := by
  obtain ⟨inner, g, outer, hframes, rfl, -⟩ := h
  simp only [Cursor.depth, hframes, List.length_append, List.length_cons]
  omega

/-- A scope stands until there are only those around it. Then it is gone, with
its number. -/
theorem Stands.change (h : Stands level key kind c) (hranked : c.Ranked)
    (hchange : Change c d) :
    Stands level key kind d ∨ d.depth ≤ level ∧ Gone key d := by
  obtain ⟨inner, g, outer, hframes, hlevel, hid, hkind⟩ := h
  cases hchange with
  | source s => exact .inl ⟨inner, g, outer, hframes, hlevel, hid, hkind⟩
  | @altered f f' outer' hinnermost halters =>
      rw [hinnermost] at hframes
      cases inner with
      | nil =>
          cases hframes
          exact .inl ⟨[], f', outer, rfl, hlevel, halters.id.trans hid, halters.kind.trans hkind⟩
      | cons f inner =>
          cases hframes
          exact .inl ⟨f' :: inner, g, outer, rfl, hlevel, hid, hkind⟩
  | opened kind' n hroom =>
      exact .inl ⟨_ :: inner, g, outer, congrArg _ hframes, hlevel, hid, hkind⟩
  | popped =>
      cases inner with
      | nil =>
          refine .inr ⟨?_, ?_, ?_⟩
          · simp [Cursor.depth, hframes, hlevel]
          · rw [← hid]
            exact hranked.bounded g (by simp [hframes])
          · have hdescending := hranked.descending
            rw [hframes, List.nil_append, List.pairwise_cons] at hdescending
            intro f hf
            rw [hframes] at hf
            rw [← hid]
            exact Nat.ne_of_lt (hdescending.1 f hf)
      | cons f inner =>
          exact .inl ⟨inner, g, outer, by simp [hframes], hlevel, hid, hkind⟩

/-- A scope stands where it has been opened, over those that were open. -/
theorem stands_of_beginScope (h : beginScope kind c = .ok key d) : Stands c.depth key kind d := by
  obtain ⟨-, -, -, header, n, rest, -, -, rfl⟩ := beginScope_inv h
  exact ⟨[], _, _, rfl, length_modifyHead .., rfl, rfl⟩

/-- On the way from where a scope has been opened it stands as long as it stays
open, and is gone from then on. -/
theorem Way.stands_or_gone (h : Way opened trail c) (hranked : opened.Ranked)
    (hstands : Stands level key kind opened) :
    StaysOpen level trail ∧ Stands level key kind c ∨
      ¬StaysOpen level trail ∧ Gone key c := by
  have hmore {d : Cursor} {trail : List Cursor} (h : ¬StaysOpen level trail) :
      ¬StaysOpen level (d :: trail) := fun hopen =>
    h fun d hd => hopen d (List.mem_cons_of_mem _ hd)
  induction h with
  | rest => exact .inl ⟨by simpa [StaysOpen] using hstands.depth, hstands⟩
  | @change trail d e hway hchange ih =>
      obtain ⟨hopen, hstands⟩ | ⟨hopen, hgone⟩ := ih
      · obtain hstands | ⟨hdepth, hgone⟩ := hstands.change (hranked.way hway) hchange
        · exact .inl ⟨List.forall_mem_cons.mpr ⟨hstands.depth, hopen⟩, hstands⟩
        · refine .inr ⟨fun hopen => ?_, hgone⟩
          exact Nat.not_lt_of_le hdepth (hopen e (List.mem_cons_self ..))
      · exact .inr ⟨hmore hopen, (stable_gone key).closed d e hchange hgone⟩
  | configured _ maxDepth strict ih =>
      obtain ⟨hopen, hstands⟩ | ⟨hopen, hgone⟩ := ih
      · exact .inl ⟨List.forall_mem_cons.mpr ⟨hstands.depth, hopen⟩, hstands⟩
      · exact .inr ⟨hmore hopen, hgone.given, hgone.closed⟩

/-! ### What the number is good for -/

/-- A number of no open scope closes none. -/
theorem Gone.refused (h : Gone key c) (kind : Container) :
    endScope kind key c = .error (.readerContext .notOpen) c := by
  have hnone : c.frames.findIdx? (fun f => (f.id : Int) == key) = none := by
    rw [List.findIdx?_eq_none_iff]
    exact fun f hf => beq_eq_false_iff_ne.mpr fun heq => h.closed f hf (Int.ofNat.inj heq)
  have hupTo : scopesUpTo kind key c = .error (.readerContext .notOpen) c := by
    rw [scopesUpTo, bind_apply, get_apply]
    dsimp only
    rw [hnone]
    rfl
  exact bind_of_error hupTo

/-- A scope is not closed as one of the other kind. -/
theorem Stands.refused (h : Stands level key kind c) (hranked : c.Ranked) (hkind : kind' ≠ kind) :
    endScope kind' key c = .error (.readerContext .closedAsOther) c := by
  obtain ⟨inner, g, outer, hframes, -, rfl, rfl⟩ := h
  have hupTo : scopesUpTo kind' g.id c = .error (.readerContext .closedAsOther) c :=
    (scopesUpTo_of_frames hframes (hranked.ne_of_inner hframes)).trans (if_neg (Ne.symm hkind))
  exact bind_of_error hupTo

/-- Closing an open scope as what it is, no complaint is about the caller. -/
theorem endScope_blameless {inner : List Frame} {g : Frame} {e : Error} (hranked : c.Ranked)
    (hsettled : ∀ f ∈ c.frames, f.Settled) (hframes : c.frames = inner ++ g :: outer)
    (h : endScope g.kind g.id c = .error e d) : e.kind ≠ .readerContext := by
  have hclosing : c.frames = inner ++ [g] ++ outer := by
    rw [hframes, List.append_assoc, List.singleton_append]
  rw [endScope_of_inner hframes (hranked.ne_of_inner hframes)] at h
  refine times_close_blameless hclosing (fun f hf => hsettled f ?_) h
  rw [hclosing]
  exact List.mem_append_left outer hf

theorem shouldBreak_of_frames (hframes : c.frames = f :: outer) (key : Int) :
    shouldBreak key c = .ok (key == f.id && f.remaining == 0) c := by
  rw [shouldBreak, bind_of_ok (innermost_of_frames hframes)]
  rfl

/-- The number of the scope is that of the innermost one if there are no others
inside it. -/
theorem Stands.innermost_iff (h : Stands level key kind c) (hranked : c.Ranked)
    (hframes : c.frames = f :: outer) : key = f.id ↔ c.depth = level + 1 := by
  obtain ⟨inner, g, outer', heq, rfl, rfl, -⟩ := h
  cases inner with
  | nil =>
      cases heq.symm.trans hframes
      simp [Cursor.depth, heq]
  | cons f' inner =>
      have hne := hranked.ne_of_inner heq f' (by simp)
      cases heq.symm.trans hframes
      simp only [Cursor.depth, heq, List.length_append, List.length_cons]
      constructor
      · exact fun hid => absurd hid.symm hne
      · omega

/-- In a run, with failing calls and changes of limits among the others, let a
scope be opened. From there the scopes are not forgotten. The number that the
scope has got closes it, with no complaint about the caller, as long as it stays
open, and as what it is. Otherwise the number is refused, and the cursor stays as
it is. Wherever some scope is open, the number tells whether it is this one that
is the innermost, and read to its end. No scope opened later gets the number. -/
theorem keys_never_alias (hnew : new.frames = [])
    (hbegin : beginScope kind (new.after before) = .ok key opened) (hlater : .clear ∉ later) :
    (∃ trail, Way opened trail (opened.after later)) ∧
      ∀ trail, Way opened trail (opened.after later) →
        let c := opened.after later
        let level := (new.after before).depth
        (∀ kind', StaysOpen level trail ∧ kind' = kind → ∀ e d,
          endScope kind' key c = .error e d → e.kind ≠ .readerContext) ∧
        (∀ kind', ¬(StaysOpen level trail ∧ kind' = kind) → ∃ misuse,
          endScope kind' key c = .error (.readerContext misuse) c) ∧
        (c.frames ≠ [] → ∃ b, shouldBreak key c = .ok b c ∧
          (b = true ↔ StaysOpen level trail ∧ c.depth = level + 1 ∧
            ∀ f ∈ c.frames.head?, f.remaining = 0)) ∧
        ∀ kind' key' d, beginScope kind' c = .ok key' d → key' ≠ key := by
  have hopened : opened.Regular :=
    (closed_regular.beginScope kind).ok (after_regular hnew before) hbegin
  refine ⟨way_after opened hlater, ?_⟩
  intro trail hway c level
  have hregular : c.Regular := hopened.way hway
  have hsettled := hregular.settled
  have hranked : c.Ranked := hregular.toRanked
  have hplace : StaysOpen level trail ∧ Stands level key kind c ∨
      ¬StaysOpen level trail ∧ Gone key c :=
    hway.stands_or_gone hopened.toRanked (stands_of_beginScope hbegin)
  refine ⟨?_, ?_, ?_, ?_⟩
  · rintro kind' ⟨hopen, rfl⟩ e d herror
    obtain ⟨-, hc⟩ | ⟨hclosed, -⟩ := hplace
    · obtain ⟨inner, g, outer, hframes, -, rfl, rfl⟩ := hc
      exact endScope_blameless hranked hsettled hframes herror
    · exact absurd hopen hclosed
  · intro kind' hnot
    obtain ⟨hopen, hc⟩ | ⟨-, hc⟩ := hplace
    · exact ⟨_, hc.refused hranked fun hkind => hnot ⟨hopen, hkind⟩⟩
    · exact ⟨_, hc.refused kind'⟩
  · intro hne
    obtain ⟨f, outer, hframes⟩ := List.exists_cons_of_ne_nil hne
    have hid : key = f.id ↔ StaysOpen level trail ∧ c.depth = level + 1 := by
      obtain ⟨hopen, hc⟩ | ⟨hclosed, hc⟩ := hplace
      · rw [hc.innermost_iff hranked hframes]
        exact (and_iff_right hopen).symm
      · have hne : key ≠ f.id := Ne.symm (hc.closed f (by simp [hframes]))
        exact iff_of_false hne fun h => hclosed h.1
    refine ⟨_, shouldBreak_of_frames hframes key, ?_⟩
    rw [Bool.and_eq_true, beq_iff_eq, beq_iff_eq, Int.ofNat_inj, hid, and_assoc, hframes]
    simp
  · intro kind' key' d hlast
    have hgiven : key ≤ c.lastId := by
      obtain ⟨-, inner, g, outer, hframes, -, rfl, -⟩ | ⟨-, hc⟩ := hplace
      · exact hranked.bounded g (by simp [hframes])
      · exact hc.given
    obtain ⟨-, -, rfl, -⟩ := beginScope_inv hlast
    omega

/-- Before an array of two arrays, of which the second is cut off. -/
def beforeArrays : Cursor :=
  { maxDepth := 2, source := .ofBytes .memory [0x92, 0x91, 0x01, 0x91] }

def inFirstArray : Cursor :=
  { maxDepth := 2, source := ⟨.memory, [0x01, 0x91], 2⟩,
    frames := [.opened .array 2 1, .opened .array 1 1], lastId := 2 }

def inSecondArray : Cursor :=
  { maxDepth := 2, source := ⟨.memory, [], 4⟩,
    frames := [.opened .array 3 1, .opened .array 1 0], lastId := 3 }

/-- Closing all fails within the second array. The number of the first one is
refused there, although as many scopes are open as before. -/
theorem keys_never_alias_second_array :
    beginScope .array (beforeArrays.after [.act (.enter .array)]) = .ok 2 inFirstArray ∧
      inFirstArray.after [.act (.leave .array (1 : Nat))] = inSecondArray ∧
      (∃ trail, Way inFirstArray trail inSecondArray ∧ ¬StaysOpen 1 trail) ∧
      ∃ misuse, endScope .array (2 : Nat) inSecondArray =
        .error (.readerContext misuse) inSecondArray := by
  have hbegin : beginScope .array (beforeArrays.after [.act (.enter .array)]) =
      .ok 2 inFirstArray := rfl
  have hleave : inFirstArray.after [.act (.leave .array (1 : Nat))] = inSecondArray := rfl
  have hrefused : endScope .array (2 : Nat) inSecondArray =
      .error (.readerContext .notOpen) inSecondArray := rfl
  have hnew : beforeArrays.frames = [] := rfl
  have hlater : Request.clear ∉ [Request.act (.leave .array (1 : Nat))] := by simp
  obtain ⟨⟨trail, hway⟩, hall⟩ := keys_never_alias hnew hbegin hlater
  obtain ⟨haccepted, hother, -⟩ := hall trail hway
  have hclosed : ¬StaysOpen 1 trail := fun hopen =>
    haccepted .array ⟨hopen, rfl⟩ _ _ hrefused rfl
  exact ⟨hbegin, hleave, ⟨trail, hway, hclosed⟩, hother .array fun h => hclosed h.1⟩

end MsgPack.Cursor
