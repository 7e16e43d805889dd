import MsgPack.Proofs.Schema.Order
import MsgPack.Proofs.Schema.Same

/-!
The map of a sequence of entries. Its keys ascend, each is bound to what it was
bound to last, and there are no others. Every law is one of binding a single
key, and of the sequence by induction from its end.
-/

namespace MsgPack

/-- What the first entry with a key binds it to. -/
def binding {α β : Type} (cmp : α → α → Ordering) (key : α) (es : List (α × β)) : Option β :=
  (es.find? fun e => cmp key e.1 == .eq).map Prod.snd

/-- Each key is less than those behind it. -/
def Ascending {α β : Type} (cmp : α → α → Ordering) (es : List (α × β)) : Prop :=
  es.Pairwise fun e f => cmp e.1 f.1 = .lt

/-- No two entries have a key in common. -/
def Distinct {α β : Type} (cmp : α → α → Ordering) (es : List (α × β)) : Prop :=
  es.Pairwise fun e f => cmp e.1 f.1 ≠ .eq

section Entries

variable {α β : Type} {cmp : α → α → Ordering} {P : α → Prop} {R : β → Prop} {key own : α}
  {val : β} {es fs found : List (α × β)}

theorem binding_cons (key : α) (e : α × β) (es : List (α × β)) :
    binding cmp key (e :: es) = if cmp key e.1 = .eq then some e.2 else binding cmp key es := by
  by_cases h : cmp key e.1 = .eq <;> simp [binding, h]

/-! ### One more entry -/

theorem forall_insertEntry (hkey : P key) (hval : R val)
    (hfound : ∀ e ∈ found, P e.1 ∧ R e.2) :
    ∀ e ∈ insertEntry cmp key val found, P e.1 ∧ R e.2 := by
  induction found with
  | nil => exact List.forall_mem_singleton.mpr ⟨hkey, hval⟩
  | cons f found ih =>
      obtain ⟨hf, hrest⟩ := List.forall_mem_cons.mp hfound
      rw [insertEntry]
      cases cmp key f.1 with
      | lt => exact List.forall_mem_cons.mpr ⟨⟨hkey, hval⟩, hfound⟩
      | eq => exact List.forall_mem_cons.mpr ⟨⟨hf.1, hval⟩, hrest⟩
      | gt => exact List.forall_mem_cons.mpr ⟨hf, ih hrest⟩

theorem length_insertEntry_le : (insertEntry cmp key val found).length ≤ found.length + 1 := by
  induction found with
  | nil => exact Nat.le_refl 1
  | cons f found ih =>
      rw [insertEntry]
      cases cmp key f.1 with
      | lt => exact Nat.le_refl _
      | eq => exact Nat.le_succ _
      | gt => exact Nat.succ_le_succ ih

/-- A key that is new is one more. -/
theorem perm_insertEntry (hnew : ∀ e ∈ found, cmp key e.1 ≠ .eq) :
    (insertEntry cmp key val found).Perm ((key, val) :: found) := by
  induction found with
  | nil => exact .refl _
  | cons f found ih =>
      obtain ⟨hf, hrest⟩ := List.forall_mem_cons.mp hnew
      rw [insertEntry]
      cases hcmp : cmp key f.1 with
      | lt => exact .refl _
      | eq => exact absurd hcmp hf
      | gt => exact ((ih hrest).cons f).trans (.swap (key, val) f found)

theorem ascending_insertEntry (h : Orders cmp P) (hown : P own) (hfound : ∀ e ∈ found, P e.1)
    (hasc : Ascending cmp found) : Ascending cmp (insertEntry cmp own val found) := by
  induction found with
  | nil => exact List.pairwise_singleton _ _
  | cons f found ih =>
      obtain ⟨hf, hrest⟩ := List.forall_mem_cons.mp hfound
      obtain ⟨hless, hasc'⟩ := List.pairwise_cons.mp hasc
      rw [insertEntry]
      cases hcmp : cmp own f.1 with
      | lt =>
          refine List.pairwise_cons.mpr ⟨List.forall_mem_cons.mpr ⟨hcmp, fun e he => ?_⟩, hasc⟩
          exact h.lt_trans hown hf (hrest e he) hcmp (hless e he)
      | eq => exact List.pairwise_cons.mpr ⟨hless, hasc'⟩
      | gt =>
          -- what is behind the first key is the new key or was there before
          have hbehind : ∀ e ∈ insertEntry cmp own val found, cmp f.1 e.1 = .lt ∧ True :=
            forall_insertEntry (P := fun k => cmp f.1 k = .lt) (R := fun _ => True)
              (h.gt_iff.mp hcmp) ⟨⟩ fun e he => ⟨hless e he, ⟨⟩⟩
          exact List.pairwise_cons.mpr ⟨fun e he => (hbehind e he).1, ih hrest hasc'⟩

/-- The new entry is the one that binds its key, and every other key is bound as
before. -/
theorem binding_insertEntry (h : Orders cmp P) (hkey : P key) (hown : P own)
    (hfound : ∀ e ∈ found, P e.1) :
    binding cmp key (insertEntry cmp own val found) =
      binding cmp key ((own, val) :: found) := by
  induction found with
  | nil => rfl
  | cons f found ih =>
      obtain ⟨hf, hrest⟩ := List.forall_mem_cons.mp hfound
      rw [insertEntry]
      cases hcmp : cmp own f.1 with
      | lt => rfl
      | eq =>
          -- the key that is there is level with the new one
          have hlevel : cmp key f.1 = cmp key own := (h.coherent hkey hown hf).right hcmp
          simp only [binding_cons, hlevel]
          split <;> rfl
      | gt =>
          simp only [binding_cons, ih hrest]
          split
          · next hlevel =>
              -- a key that is level with the first one is not level with the new one
              have hne : cmp key own ≠ .eq := fun heq => by
                have hown : cmp key f.1 = cmp own f.1 := (h.coherent hkey hown hf).left heq
                cases hlevel.symm.trans (hown.trans hcmp)
              rw [if_neg hne]
          · rfl

/-! ### Every entry -/

theorem forall_mapOfEntries (hes : ∀ e ∈ es, P e.1 ∧ R e.2) :
    ∀ e ∈ mapOfEntries cmp es, P e.1 ∧ R e.2 := by
  induction es using List.reverseRecOn with
  | nil => exact hes
  | append_singleton es e ih =>
      obtain ⟨hes, he⟩ := List.forall_mem_append.mp hes
      obtain ⟨hkey, hval⟩ := List.forall_mem_singleton.mp he
      rw [mapOfEntries_concat]
      exact forall_insertEntry hkey hval (ih hes)

theorem length_mapOfEntries_le (es : List (α × β)) :
    (mapOfEntries cmp es).length ≤ es.length := by
  induction es using List.reverseRecOn with
  | nil => exact Nat.le_refl 0
  | append_singleton es e ih =>
      rw [mapOfEntries_concat, List.length_append]
      exact Nat.le_trans length_insertEntry_le (Nat.succ_le_succ ih)

theorem keys_mapOfEntries (hes : ∀ e ∈ es, P e.1) : ∀ e ∈ mapOfEntries cmp es, P e.1 :=
  fun e he => (forall_mapOfEntries (R := fun _ => True) (fun f hf => ⟨hes f hf, ⟨⟩⟩) e he).1

theorem ascending_mapOfEntries (h : Orders cmp P) (hes : ∀ e ∈ es, P e.1) :
    Ascending cmp (mapOfEntries cmp es) := by
  induction es using List.reverseRecOn with
  | nil => exact .nil
  | append_singleton es e ih =>
      obtain ⟨hes, he⟩ := List.forall_mem_append.mp hes
      rw [mapOfEntries_concat]
      exact ascending_insertEntry h (he e List.mem_cons_self) (keys_mapOfEntries hes)
        (ih hes)

/-- The last entry with a key is the one that counts. -/
theorem binding_mapOfEntries (h : Orders cmp P) (hkey : P key) (hes : ∀ e ∈ es, P e.1) :
    binding cmp key (mapOfEntries cmp es) = binding cmp key es.reverse := by
  induction es using List.reverseRecOn with
  | nil => rfl
  | append_singleton es e ih =>
      obtain ⟨hes, he⟩ := List.forall_mem_append.mp hes
      rw [mapOfEntries_concat, List.reverse_concat, binding_cons, ← ih hes, ← binding_cons]
      exact binding_insertEntry h hkey (he e List.mem_cons_self) (keys_mapOfEntries hes)

/-- Entries without a key in common all stay. -/
theorem perm_mapOfEntries (h : Orders cmp P) (hes : Distinct cmp es) :
    (mapOfEntries cmp es).Perm es := by
  induction es using List.reverseRecOn with
  | nil => exact .refl _
  | append_singleton es e ih =>
      obtain ⟨hes, -, hne⟩ := List.pairwise_append.mp hes
      rw [mapOfEntries_concat]
      have hnew : ∀ f ∈ mapOfEntries cmp es, cmp e.1 f.1 ≠ .eq := fun f hf hlevel =>
        hne f ((ih hes).mem_iff.mp hf) e List.mem_cons_self (h.eq_comm.mp hlevel)
      calc
        (insertEntry cmp e.1 e.2 (mapOfEntries cmp es)).Perm (e :: mapOfEntries cmp es) :=
          perm_insertEntry hnew
        _ |>.Perm (e :: es) := (ih hes).cons e
        _ |>.Perm (es ++ [e]) := (List.perm_append_singleton e es).symm

/-- Maps of the same entries in whatever order are the same. -/
theorem mapOfEntries_eq_of_perm (h : Orders cmp P) (hes : ∀ e ∈ es, P e.1)
    (hdistinct : Distinct cmp es) (hperm : fs.Perm es) :
    mapOfEntries cmp fs = mapOfEntries cmp es := by
  have hdistinct' : Distinct cmp fs :=
    hperm.symm.pairwise hdistinct fun hne heq => hne (h.eq_comm.mp heq)
  have hfs : ∀ e ∈ fs, P e.1 := fun e he => hes e (hperm.mem_iff.mp he)
  have hsame : (mapOfEntries cmp fs).Perm (mapOfEntries cmp es) :=
    ((perm_mapOfEntries h hdistinct').trans hperm).trans (perm_mapOfEntries h hdistinct).symm
  refine hsame.eq_of_pairwise (fun e f _ _ hef hfe => ?_) (ascending_mapOfEntries h hfs)
    (ascending_mapOfEntries h hes)
  cases (h.gt_iff.mpr hfe).symm.trans hef

theorem mapOfEntries_mapOfEntries (h : Orders cmp P) (hes : ∀ e ∈ es, P e.1) :
    mapOfEntries cmp (mapOfEntries cmp es) = mapOfEntries cmp es :=
  mapOfEntries_of_ascending ((ascending_mapOfEntries h hes).imp h.gt_iff.mpr)

/-- A key that is level with every other takes in all that comes after it. -/
theorem mapOfEntries_of_level (hlevel : ∀ key, cmp key own = .eq) (val : β) (es : List (α × β)) :
    mapOfEntries cmp ((own, val) :: es) = [(own, (es.map Prod.snd).getLastD val)] := by
  induction es using List.reverseRecOn with
  | nil => rfl
  | append_singleton es e ih =>
      rw [← List.cons_append, mapOfEntries_concat, ih, insertEntry, hlevel]
      simp

/-- The entries are those of a map by the last word on each key: its keys ascend
and are keys that occur, and each is bound to what comes with its last
occurrence. -/
structure LastWins (cmp : α → α → Ordering) (P : α → Prop) (es found : List (α × β)) : Prop where
  ascending : Ascending cmp found
  keys : ∀ e ∈ found, ∃ f ∈ es, f.1 = e.1
  binds : ∀ key, P key → binding cmp key found = binding cmp key es.reverse

theorem lastWins_mapOfEntries (h : Orders cmp P) (hes : ∀ e ∈ es, P e.1) :
    LastWins cmp P es (mapOfEntries cmp es) where
  ascending := ascending_mapOfEntries h hes
  keys := keys_mapOfEntries (P := fun key => ∃ f ∈ es, f.1 = key) fun e he => ⟨e, he, rfl⟩
  binds _ hkey := binding_mapOfEntries h hkey hes

end Entries

end MsgPack
