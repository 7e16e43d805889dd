import MsgPack.Proofs.Schema.Order
import MsgPack.Proofs.Schema.Same
import MsgPack.Proofs.Value.Encoding

/-!
Objects that have been read. They can be archived as well as those that were
written, and reading them again changes nothing more: a NaN loses what it can
lose the first time, and an object without any is what it was.
-/

namespace MsgPack

theorem map_eq_self {α : Type} {f : α → α} {xs : List α} (h : ∀ x ∈ xs, f x = x) :
    xs.map f = xs :=
  (List.map_congr_left h).trans (List.map_id xs)

mutual

/-- What was read once is read again as it is. -/
theorem Schema.reread_reread : (s : Schema) → (x : s.Val) → s.reread (s.reread x) = s.reread x
  | .float .single, x => Single.narrow_widen_narrow_widen x
  | .float .double, _ => rfl
  | .list s, (xs : List s.Val) => by
      show (xs.map s.reread).map s.reread = xs.map s.reread
      rw [List.map_map]
      exact List.map_congr_left fun x _ => s.reread_reread x
  | .map k v, (es : List (k.Val × v.Val)) => by
      show (es.map fun e => (k.reread e.1, v.reread e.2)).map _ = es.map _
      rw [List.map_map]
      exact List.map_congr_left fun e _ =>
        Prod.ext (k.reread_reread e.1) (v.reread_reread e.2)
  | .option _, none => rfl
  | .option s, some x => congrArg some (s.reread_reread x)
  | .tuple r, x => r.reread_reread x
  | .struct r, x => r.reread_reread x
  | .variant a, x => a.reread_reread x
  | .nil, _ | .bool, _ | .int .., _ | .carried _, _ | .number, _ | .char, _ | .text .., _
  | .binary _, _ | .extension _, _ | .fixedExtension _, _ | .timestamp _, _ | .instant _, _
  | .value _, _ => rfl

theorem Row.reread_reread : (r : Row) → (x : r.Val) → r.reread (r.reread x) = r.reread x
  | .nil, _ => rfl
  | .cons _ s rest, (x, xs) => Prod.ext (s.reread_reread x) (rest.reread_reread xs)

theorem Alternatives.reread_reread : (a : Alternatives) → (x : a.Val) →
    a.reread (a.reread x) = a.reread x
  | .last _ c, x => c.reread_reread x
  | .cons _ c _, .inl x => congrArg Sum.inl (c.reread_reread x)
  | .cons _ _ rest, .inr x => congrArg Sum.inr (rest.reread_reread x)

theorem Content.reread_reread : (c : Content) → (x : c.Val) → c.reread (c.reread x) = c.reread x
  | .unit, _ => rfl
  | .item s, x => s.reread_reread x

end

mutual

/-- An object without NaNs is read as it is. -/
theorem Schema.reread_of_comparable : (s : Schema) → {x : s.Val} → s.Comparable x →
    s.reread x = x
  | .float .single, _, h => Single.narrow_widen h
  | .float .double, _, _ => rfl
  | .list s, (_ : List s.Val), h =>
      map_eq_self fun x hx => s.reread_of_comparable (Schema.comparable_list.mp h x hx)
  | .map k v, (_ : List (k.Val × v.Val)), h =>
      map_eq_self fun e he =>
        have ⟨hkey, hval⟩ := Schema.comparable_map.mp h e he
        Prod.ext (k.reread_of_comparable hkey) (v.reread_of_comparable hval)
  | .option _, none, _ => rfl
  | .option s, some _, h => congrArg some (s.reread_of_comparable h)
  | .tuple r, _, h => r.reread_of_comparable h.2
  | .struct r, _, h => r.reread_of_comparable (r.comparable_fieldTrees.mp h.2)
  | .variant a, _, h => a.reread_of_comparable h
  | .nil, _, _ | .bool, _, _ | .int .., _, _ | .carried _, _, _ | .number, _, _ | .char, _, _
  | .text .., _, _ | .binary _, _, _ | .extension _, _, _ | .fixedExtension _, _, _
  | .timestamp _, _, _ | .instant _, _, _ | .value _, _, _ => rfl

theorem Row.reread_of_comparable : (r : Row) → {x : r.Val} → r.Comparable x → r.reread x = x
  | .nil, _, _ => rfl
  | .cons _ s rest, (_, _), h =>
      Prod.ext (s.reread_of_comparable h.1) (rest.reread_of_comparable h.2)

theorem Alternatives.reread_of_comparable : (a : Alternatives) → {x : a.Val} →
    (a.tree x).Everywhere Tree.Comparable → a.reread x = x
  | .last name c, _, h => c.reread_of_comparable name h
  | .cons name c _, .inl _, h => congrArg Sum.inl (c.reread_of_comparable name h)
  | .cons _ _ rest, .inr _, h => congrArg Sum.inr (rest.reread_of_comparable h)

theorem Content.reread_of_comparable : (c : Content) → (name : Bytes) → {x : c.Val} →
    (c.tree name x).Everywhere Tree.Comparable → c.reread x = x
  | .unit, _, _, _ => rfl
  | .item s, _, _, h => s.reread_of_comparable h.2.2.1

end

/-! ### Archiving what was read -/

theorem Alternatives.tree_ne_nil : (a : Alternatives) → (x : a.Val) → a.tree x ≠ .nil
  | .last _ .unit, _ => Tree.noConfusion
  | .last _ (.item _), _ => Tree.noConfusion
  | .cons _ .unit _, .inl _ => Tree.noConfusion
  | .cons _ (.item _) _, .inl _ => Tree.noConfusion
  | .cons _ _ rest, .inr x => rest.tree_ne_nil x

theorem Schema.tree_reread_ne_nil : (s : Schema) → {x : s.Val} → s.tree x ≠ .nil →
    s.tree (s.reread x) ≠ .nil
  | .float .single, _, _ => Tree.noConfusion
  | .list _, _, _ => Tree.noConfusion
  | .map .., _, _ => Tree.noConfusion
  | .option _, none, h => h
  | .option s, some _, h => s.tree_reread_ne_nil h
  | .tuple _, _, _ => Tree.noConfusion
  | .struct _, _, _ => Tree.noConfusion
  | .variant a, x, _ => a.tree_ne_nil (a.reread x)
  | .float .double, _, h | .nil, _, h | .bool, _, h | .int .., _, h | .carried _, _, h
  | .number, _, h | .char, _, h | .text .., _, h | .binary _, _, h | .extension _, _, h
  | .fixedExtension _, _, h | .timestamp _, _, h | .instant _, _, h | .value _, _, h => h

mutual

theorem Schema.storable_reread : (s : Schema) → {x : s.Val} → s.Storable x →
    s.Storable (s.reread x)
  | .float .single, _, h => h
  | .list s, (xs : List s.Val), h => by
      have hlen : (xs.map s.reread).length = xs.length := List.length_map _
      exact ⟨hlen ▸ h.1, List.forall_mem_map.mpr fun x hx => s.storable_reread (h.2 x hx)⟩
  | .map k v, (es : List (k.Val × v.Val)), h => by
      have hlen : (es.map fun e => (k.reread e.1, v.reread e.2)).length = es.length :=
        List.length_map _
      refine ⟨hlen ▸ h.1, List.pairwise_map.mpr (h.2.1.imp fun hgt => ?_),
        List.forall_mem_map.mpr fun e he => ?_⟩
      · rwa [k.compare_reread]
      · exact ⟨k.storable_reread (h.2.2 e he).1, v.storable_reread (h.2.2 e he).2⟩
  | .option _, none, h => h
  | .option s, some _, h => ⟨s.tree_reread_ne_nil h.1, s.storable_reread h.2⟩
  | .tuple r, _, h => ⟨h.1, r.storable_reread h.2⟩
  | .struct r, _, h => ⟨h.1, r.storable_reread h.2⟩
  | .variant a, _, h => a.storable_reread h
  | .float .double, _, h | .nil, _, h | .bool, _, h | .int .., _, h | .carried _, _, h
  | .number, _, h | .char, _, h | .text .., _, h | .binary _, _, h | .extension _, _, h
  | .fixedExtension _, _, h | .timestamp _, _, h | .instant _, _, h | .value _, _, h => h

theorem Row.storable_reread : (r : Row) → {x : r.Val} → r.Storable x → r.Storable (r.reread x)
  | .nil, _, h => h
  | .cons _ s rest, (_, _), h => ⟨s.storable_reread h.1, rest.storable_reread h.2⟩

theorem Alternatives.storable_reread : (a : Alternatives) → {x : a.Val} → a.Storable x →
    a.Storable (a.reread x)
  | .last _ c, _, h => c.storable_reread h
  | .cons _ c _, .inl _, h => c.storable_reread h
  | .cons _ _ rest, .inr _, h => rest.storable_reread h

theorem Content.storable_reread : (c : Content) → {x : c.Val} → c.Storable x →
    c.Storable (c.reread x)
  | .unit, _, h => h
  | .item s, _, h => s.storable_reread h

end

mutual

/-- Reading changes nothing that decides whether a tree can be encoded and
whether there is room for it. -/
theorem Schema.fits_reread : (s : Schema) → {x : s.Val} → {levels : Nat} →
    (s.tree x).Fits levels → (s.tree (s.reread x)).Fits levels
  | .float .single, _, _, _ => .scalar ⟨⟩ ⟨⟩ rfl
  | .list s, (xs : List s.Val), _, h => by
      obtain ⟨hshort, inner, rfl, helems⟩ := h.elems
      have hlen : ((xs.map s.reread).map s.tree).length = (xs.map s.tree).length := by simp
      refine Tree.fits_array (Nat.le_trans (Nat.le_of_eq hlen) hshort) ?_
      refine List.forall_mem_map.mpr (List.forall_mem_map.mpr fun x hx => ?_)
      exact s.fits_reread (helems _ (List.mem_map_of_mem hx))
  | .map k v, (es : List (k.Val × v.Val)), _, h => by
      obtain ⟨hshort, inner, rfl, hentries⟩ := h.entries
      have hlen : ((es.map fun e => (k.reread e.1, v.reread e.2)).map
          fun e => (k.tree e.1, v.tree e.2)).length =
          (es.map fun e => (k.tree e.1, v.tree e.2)).length := by simp
      refine Tree.fits_map (Nat.le_trans (Nat.le_of_eq hlen) hshort) ?_
      refine List.forall_mem_map.mpr (List.forall_mem_map.mpr fun e he => ?_)
      have hfits := hentries _ (List.mem_map_of_mem he)
      exact ⟨k.fits_reread hfits.1, v.fits_reread hfits.2⟩
  | .option _, none, _, h => h
  | .option s, some _, _, h => s.fits_reread h
  | .tuple r, x, _, h => by
      obtain ⟨hshort, inner, rfl, helems⟩ := h.elems
      have hlen : (r.trees (r.reread x)).length = (r.trees x).length :=
        (r.length_trees _).trans (r.length_trees x).symm
      exact Tree.fits_array (Nat.le_trans (Nat.le_of_eq hlen) hshort)
        (r.fits_reread_trees helems)
  | .struct r, x, _, h => by
      obtain ⟨hshort, inner, rfl, hentries⟩ := h.entries
      have hlen : (r.fieldTrees (r.reread x)).length = (r.fieldTrees x).length :=
        (r.length_fieldTrees _).trans (r.length_fieldTrees x).symm
      exact Tree.fits_map (Nat.le_trans (Nat.le_of_eq hlen) hshort)
        (r.fits_reread_fieldTrees hentries)
  | .variant a, _, _, h => a.fits_reread h
  | .float .double, _, _, h | .nil, _, _, h | .bool, _, _, h | .int .., _, _, h
  | .carried _, _, _, h | .number, _, _, h | .char, _, _, h | .text .., _, _, h
  | .binary _, _, _, h | .extension _, _, _, h | .fixedExtension _, _, _, h
  | .timestamp _, _, _, h | .instant _, _, _, h | .value _, _, _, h => h

theorem Row.fits_reread_trees : (r : Row) → {x : r.Val} → {levels : Nat} →
    (∀ t ∈ r.trees x, t.Fits levels) → ∀ t ∈ r.trees (r.reread x), t.Fits levels
  | .nil, _, _, h => h
  | .cons _ s rest, (_, _), _, h =>
      have ⟨hitem, hrest⟩ := List.forall_mem_cons.mp h
      List.forall_mem_cons.mpr ⟨s.fits_reread hitem, rest.fits_reread_trees hrest⟩

theorem Row.fits_reread_fieldTrees : (r : Row) → {x : r.Val} → {levels : Nat} →
    (∀ e ∈ r.fieldTrees x, e.1.Fits levels ∧ e.2.Fits levels) →
    ∀ e ∈ r.fieldTrees (r.reread x), e.1.Fits levels ∧ e.2.Fits levels
  | .nil, _, _, h => h
  | .cons _ s rest, (_, _), _, h =>
      have ⟨hfield, hrest⟩ := List.forall_mem_cons.mp h
      List.forall_mem_cons.mpr
        ⟨⟨hfield.1, s.fits_reread hfield.2⟩, rest.fits_reread_fieldTrees hrest⟩

theorem Alternatives.fits_reread : (a : Alternatives) → {x : a.Val} → {levels : Nat} →
    (a.tree x).Fits levels → (a.tree (a.reread x)).Fits levels
  | .last name c, _, _, h => c.fits_reread name h
  | .cons name c _, .inl _, _, h => c.fits_reread name h
  | .cons _ _ rest, .inr _, _, h => rest.fits_reread h

theorem Content.fits_reread : (c : Content) → (name : Bytes) → {x : c.Val} → {levels : Nat} →
    (c.tree name x).Fits levels → (c.tree name (c.reread x)).Fits levels
  | .unit, _, _, _, h => h
  | .item s, name, _, _, h => by
      obtain ⟨hshort, inner, rfl, hentries⟩ := h.entries
      obtain ⟨hname, hval⟩ := hentries _ List.mem_cons_self
      exact Tree.fits_map hshort (List.forall_mem_singleton.mpr ⟨hname, s.fits_reread hval⟩)

end

end MsgPack
