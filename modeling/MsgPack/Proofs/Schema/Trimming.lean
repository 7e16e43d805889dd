import MsgPack.Proofs.Cursor.Closing
import MsgPack.Proofs.Cursor.InPlace
import MsgPack.Proofs.Schema.Relocating

/-!
What is read in place is read of its bytes alone. A step that succeeds does the
same where less comes behind what it consumes, and an object consumes the next
value, the whole of it and nothing behind it. So whether an object can be read
is a matter of the value that comes next and of the levels that are left.
-/

namespace MsgPack

/-- Where the step succeeds, which takes at least `least` bytes, it does so with
less behind what it consumes. -/
def Trims {σ α : Type} [Fed σ] (least : Nat) (step : EStateM Error σ α) : Prop :=
  ∀ (c t : σ) (s s' : Source) (a : α), s'.kind = s.kind → s'.left <+: s.left →
    step (feed s c) = .ok a t →
    ∃ (d : σ) (n : Nat), least ≤ n ∧ t = feed (s.advance n) d ∧
      (n ≤ s'.left.length → step (feed s' c) = .ok a (feed (s'.advance n) d))

namespace Trims

variable {σ α β : Type} [Fed σ] {m n least : Nat} {step : EStateM Error σ α}

theorem of_beside {c t : σ} {s s' : Source} {a : α}
    (h : Beside least s s' (step (feed s c)) (step (feed s' c)))
    (hrun : step (feed s c) = .ok a t) :
    ∃ (d : σ) (n : Nat), least ≤ n ∧ t = feed (s.advance n) d ∧
      (n ≤ s'.left.length → step (feed s' c) = .ok a (feed (s'.advance n) d)) := by
  cases h with
  | ok b d n hleast _ hlong hshort =>
      cases hlong.symm.trans hrun
      exact ⟨d, n, hleast, rfl, fun _ => hshort⟩
  | short b d _ n _ hleast hn _ hlong _ =>
      cases hlong.symm.trans hrun
      exact ⟨d, n, hleast, rfl, fun hle => absurd hn (Nat.not_lt.mpr hle)⟩
  | error e _ _ _ hlong => cases hlong.symm.trans hrun

theorem of_scans (h : Scans True least step) : Trims least step :=
  fun c _ s s' _ _ hfront hrun =>
    of_beside (h c s s' (.inr trivial) (.inr trivial) hfront) hrun

theorem pure (a : α) : Trims 0 (pure a : EStateM Error σ α) := .of_scans (.pure a)

theorem throw (e : Error) : Trims least (throw e : EStateM Error σ α) := .of_scans (.throw e)

theorem mono (h : Trims n step) (hle : m ≤ n) : Trims m step := by
  intro c t s s' a hkind hfront hrun
  obtain ⟨d, k, hleast, ht, hshort⟩ := h c t s s' a hkind hfront hrun
  exact ⟨d, k, Nat.le_trans hle hleast, ht, hshort⟩

theorem bind {f : α → EStateM Error σ β} (h : Trims m step) (hf : ∀ a, Trims n (f a)) :
    Trims (m + n) (step >>= f) := by
  intro c t s s' b hkind hfront hrun
  obtain ⟨a, u, hstep, hrest⟩ := bind_eq_ok_iff.mp hrun
  obtain ⟨d, k, hleast, rfl, hshort⟩ := h c u s s' a hkind hfront hstep
  by_cases hk : k ≤ s'.left.length
  · obtain ⟨d', k', hleast', rfl, hshort'⟩ :=
      hf a d t (s.advance k) (s'.advance k) b hkind (hfront.drop k) hrest
    refine ⟨d', k + k', by omega, by rw [Source.advance_advance], fun hle => ?_⟩
    have hrest' := hshort' (by rw [Source.left_advance, List.length_drop]; omega)
    rw [bind_of_ok (hshort hk), hrest', Source.advance_advance]
  · -- the first step has taken more than there would be
    obtain ⟨d', k', hleast', rfl, -⟩ :=
      hf a d t (s.advance k) (s.advance k) b rfl (List.prefix_refl _) hrest
    exact ⟨d', k + k', by omega, by rw [Source.advance_advance], fun hle => by omega⟩

theorem consult {f : σ → EStateM Error σ α} (hf : ∀ (c : σ) (s : Source), f (feed s c) = f c)
    (h : ∀ c, Trims n (f c)) : Trims n (get >>= f) := by
  intro c t s s' a hkind hfront hrun
  have hget : ∀ u : Source, (get >>= f : EStateM Error σ α) (feed u c) = f c (feed u c) :=
    fun u => by rw [bind_of_ok (get_apply _), hf]
  rw [hget] at hrun ⊢
  exact h c c t s s' a hkind hfront hrun

end Trims

theorem LeafReader.trims {α : Type} {g : Get α} (h : LeafReader False g) : Trims 1 g := by
  intro c t s s' a hkind hfront hrun
  obtain ⟨streams, hscans, hs⟩ := h.scans_of_ok hrun
  exact Trims.of_beside (hscans c s s' hs (hs.imp_left hkind.trans) hfront) hrun

namespace Cursor

variable {α : Type} {n least : Nat}

theorem trims_leaf {g : Get α} (h : LeafReader False g) : Trims 1 (leaf g) := by
  intro c t s s' a hkind hfront hrun
  obtain ⟨hreadable, u, hg, rfl⟩ := leaf_inv hrun
  obtain ⟨_, k, hleast, rfl, hshort⟩ := h.trims s u s s' a hkind hfront hg
  exact ⟨{ c with frames := c.frames.modifyHead Frame.stepped }, k, hleast, rfl,
    fun hk => leaf_of_ok (c := feed s' c) hreadable (hshort hk)⟩

/-- Once looked at, the first byte has to be consumed. -/
theorem trims_typeNext {f : EntityType → Step α} (hf : ∀ e, Trims (n + 1) (f e)) :
    Trims (n + 1) (typeNext >>= f) := by
  intro c t s s' a hkind hfront hrun
  obtain ⟨e, u, hlook, hrest⟩ := bind_eq_ok_iff.mp hrun
  obtain ⟨rfl, b, tail, hl, he⟩ := typeNext_inv hlook
  obtain ⟨d, k, hleast, rfl, hshort⟩ := hf e c t s s' a hkind hfront hrest
  refine ⟨d, k, hleast, rfl, fun hk => ?_⟩
  have hbegins : Begins s'.left e := by
    cases hl' : s'.left with
    | nil =>
        rw [hl', List.length_nil] at hk
        omega
    | cons b' tail' =>
        have hl : s.left = b :: tail := hl
        rw [hl, hl'] at hfront
        obtain rfl := (List.cons_prefix_cons.mp hfront).1
        exact ⟨b', tail', rfl, he⟩
  have hlook' : typeNext (feed s' c) = .ok e (feed s' c) :=
    typeNext_of_begins hbegins (List.append_nil _).symm
  rw [bind_of_ok hlook']
  exact hshort hk

theorem Built.trims {step : Step α} (h : Built False least step) : Trims least step := by
  induction h with
  | pure a => exact .pure a
  | throw e => exact .throw e
  | bind _ _ ih ihf => exact ih.bind ihf
  | mono _ hle ih => exact ih.mono hle
  | consult hf _ ih => exact .consult hf ih
  | look _ ih => exact trims_typeNext ih
  | enter kind => exact .of_scans (scans_beginScope kind)
  | leave kind key => exact .of_scans (scans_endScope kind key)
  | key => exact .of_scans scans_announceKey
  | skip => exact .of_scans scans_skip
  | leaf hg => exact trims_leaf hg

end Cursor

/-! ### Objects -/

namespace Schema

open Cursor (Readable Setting Hosts OpenOrGone Inside Gone)
open Node (bytesAll)

variable {s : Schema} {x y : s.Val} {c c' : Cursor} {n : Node} {rest : Bytes}

/-- The only element of an array, in the same setting, with room for a node that
is not any higher than `height`. -/
def asElement (c : Cursor) (height : Nat) : Cursor :=
  { c with
    maxDepth := c.maxDepth + height + 1
    strict := false
    frames := [.opened .array 1 1]
    lastId := 1 }

theorem inside_asElement (hn : n.WellFormed) (hl : c.source.left = n.bytes ++ rest) :
    Inside 1 .array [] (c.source.advance n.bytes.length) (asElement c n.height) where
  lax := rfl
  given := Nat.le_refl 1
  owing := by
    have hroom : 0 + 1 + max n.height 0 ≤ c.maxDepth + n.height + 1 := by
      rw [Nat.max_zero]
      omega
    have hdue : Cursor.Due (c.maxDepth + n.height + 1) (.opened .array 1 1) [] [n] :=
      ⟨⟨hn, trivial⟩, rfl, fun hpending => Bool.noConfusion hpending, hroom⟩
    have hbytes : bytesAll [n] = n.bytes := List.append_nil _
    refine ⟨_, .own rfl rfl hdue, ?_, ?_⟩
    · rw [hbytes, Source.left_advance_length hl]
      exact hl
    · rw [hbytes]
      rfl

/-- Nothing is owed in an array behind its only element. -/
theorem eq_nil_of_owing {limit : Nat} {bs : Bytes}
    (h : Cursor.Owing limit 1 .array [] [(Frame.opened .array 1 1).stepped] bs) : bs = [] := by
  cases h with
  | own _ _ hdue =>
      obtain rfl := List.eq_nil_of_length_eq_zero hdue.remaining.symm
      rfl
  | inner houter hid _ => exact absurd rfl hid

/-- An object is read of the next value, of the whole of it, and counts as one
element. -/
theorem moved_of_restore (hn : n.WellFormed) (hreadable : Readable c.frames)
    (hl : c.source.left = n.bytes ++ rest) (h : s.restore x c = .ok y c') :
    ∃ id, c' = c.moved n.bytes.length (c.frames.modifyHead Frame.stepped) id := by
  have hhosts : Hosts [] c (asElement c n.height) :=
    ⟨rfl, rfl, (List.append_nil _).symm, by
      show c.maxDepth + 1 ≤ c.maxDepth + n.height + 1 + c.frames.length
      omega⟩
  -- read as the only element of an array it consumes as much
  obtain ⟨k, id, id', hk, rfl, hrun, -⟩ := s.portable_restore x _ _ hreadable
    (Cursor.readable_array 1 0 []) c (asElement c n.height) c' y rfl rfl hhosts h
  have hkept := (s.keeps_restore (Cursor.kept_openOrGone (List.forall_mem_nil _)) x).ok
    (.inl (inside_asElement hn hl)) hrun
  obtain ⟨-, -, bs, howing, -, hsame⟩ | hgone := hkept
  · obtain rfl := eq_nil_of_owing howing
    have hposition := congrArg Source.position hsame
    obtain rfl : k = n.bytes.length := Nat.add_left_cancel hposition
    exact ⟨id, rfl⟩
  · exact absurd rfl (hgone.closed _ List.mem_cons_self)

/-- What is read in place is read of the bytes of the value alone, with the
levels that are left in place. -/
theorem restores_of_restore (hn : n.WellFormed) (hreadable : Readable c.frames)
    (hl : c.source.left = n.bytes ++ rest) (h : s.restore x c = .ok y c') :
    Setting.Restores ⟨c.policy, c.source.kind⟩ (s.restore x) (c.maxDepth - c.frames.length)
      n.bytes y := by
  obtain ⟨id, rfl⟩ := moved_of_restore hn hreadable hl h
  let front : Source := { c.source with left := n.bytes }
  -- first the rest of the input is taken away, then the place is changed
  obtain ⟨d, k, -, hd, hshort⟩ := (s.built_restore False.elim x).trims c _ c.source front y rfl
    (hl ▸ List.prefix_append _ _) h
  obtain rfl : n.bytes.length = k :=
    Nat.add_left_cancel (congrArg (Source.position ∘ Cursor.source) hd)
  have hhosts : Hosts [] (feed front c)
      (Setting.alone ⟨c.policy, c.source.kind⟩ (c.maxDepth - c.frames.length) n.bytes) :=
    ⟨rfl, rfl, (List.append_nil _).symm, by
      show c.maxDepth + 0 ≤ c.maxDepth - c.frames.length + c.frames.length
      omega⟩
  obtain ⟨m, id, id', -, hmoved, hrun, -⟩ := s.portable_restore x _ [] hreadable trivial
    (feed front c) _ _ _ rfl rfl hhosts (hshort (Nat.le_refl _))
  obtain rfl : n.bytes.length = m :=
    Nat.add_left_cancel (congrArg (Source.position ∘ Cursor.source) hmoved)
  exact ⟨_, hrun, List.drop_length ..⟩

end Schema

end MsgPack
