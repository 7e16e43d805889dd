import MsgPack.Proofs.Schema.Fits
import MsgPack.Proofs.Timestamp
import MsgPack.Proofs.Utf8
import MsgPack.Schema.Restore

/-!
What the shapes of an archive make of their elements: characters, carried
integers and timestamps are elements with a second look; tuples, structs and
unions are read in scopes that their parts fill exactly.
-/

namespace MsgPack

open Cursor (Step Element Reads inScope announceKey elemLeft)

section Shapes

variable {α β : Type} {levels : Nat} {bs header content : Bytes} {outer : List Frame}

/-- A second look at what an element was read as. -/
theorem Cursor.Element.looked {step : Step α} {f : α → Step β} {a : α} {b : β}
    (h : Element step levels bs a) (hf : f a = pure b) : Element (step >>= f) levels bs b := by
  intro fs hfs
  refine (h fs hfs).andThen ?_ (Nat.le_of_eq (Cursor.length_modifyHead _ _))
  rw [hf]
  exact .pure b

theorem element_restoreChar {c : UInt32} (hheader : Grammar.TextHeader header content.length)
    (hcontent : Utf8.encode? c.toNat = some content) :
    Element restoreChar levels (header ++ content) c := by
  refine (Cursor.element_text .owned hheader (Utf8.isValid_of_encode hcontent)).looked ?_
  rw [Utf8.single_of_encode hcontent]
  exact congrArg pure UInt32.ofNat_toNat

theorem element_restoreCarried {t : IntType} {i : t.Value}
    (h : Grammar.Numeral bs (.ofInt (t.widest.wrap i.val))) :
    Element (restoreCarried t) levels bs i := by
  have hwide : t.ofInt? (t.widest.wrap i.val).val = some i := by
    rw [IntType.wrap_of_contains (IntType.contains_widest i)]
    exact dif_pos i.property
  have helem : Element (do Cursor.leaf ((← get).policy.int t.widest)) levels bs _ :=
    Cursor.element_leaf_by fun policy hpolicy => DecodePolicy.finds_int hpolicy h
  rw [restoreCarried]
  rw [← bind_assoc]
  apply helem.looked
  rw [hwide]

/-! ### Tuples -/

theorem element_restoreTuple {n : Nat} {elems : Step α} {a : α}
    (hheader : Grammar.ArrayHeader header n)
    (helems : ∀ key outer, Reads elems (.opened .array key n :: outer)
      (.opened .array key 0 :: outer) levels content a) :
    Element (restoreTuple n elems) (levels + 1) (header ++ content) a := by
  refine Cursor.element_array hheader fun key outer => ?_
  refine .skipTo (Cursor.reads_elemLeft _ _) ?_ (Nat.le_refl _)
  have harity : (checkArity n (Frame.opened .array key n).remaining : Step Unit) = pure () :=
    if_pos rfl
  rw [harity]
  exact .skipTo (.pure ()) (helems key outer).closing (Nat.le_refl _)

/-! ### Structs -/

theorem element_restoreStruct {n : Nat} {elems : Step α}
    {field? : α → Bytes → Option (Step α)} {x a : α} (hheader : Grammar.MapHeader header n)
    (hfields : ∀ key outer, Reads (restoreFields field? n x) (.opened .map key (2 * n) :: outer)
      (.opened .map key 0 :: outer) levels content a) :
    Element (restoreStruct n elems field? x) (levels + 1) (header ++ content) a := by
  refine .typeNext ((begins_map hheader).append content) ?_
  refine Cursor.element_map hheader fun key outer => ?_
  refine .skipTo (Cursor.reads_elemLeft _ _) ?_ (Nat.le_refl _)
  have htotal : (Frame.opened .map key (2 * n)).remaining / 2 = n :=
    Nat.mul_div_cancel_left n Nat.two_pos
  rw [htotal]
  exact (hfields key outer).closing

/-- One entry of a struct: the name, announced, and the field of that name. -/
theorem reads_restoreFields_succ {field? : α → Bytes → Option (Step α)} {n key : Nat} {x y a : α}
    {name val : Bytes} {field : Step α} (hheader : Grammar.TextHeader header name.length)
    (hvalid : Utf8.isValid name) (hname : field? x name = some field)
    (hfield : Element field levels val y)
    (hrest : Reads (restoreFields field? n y) (.opened .map key (2 * n) :: outer)
      (.opened .map key 0 :: outer) levels content a) :
    Reads (restoreFields field? (n + 1) x) (.opened .map key (2 * (n + 1)) :: outer)
      (.opened .map key 0 :: outer) levels ((header ++ name) ++ (val ++ content)) a := by
  refine .skipTo (Cursor.reads_announceKey key n) ?_ (Nat.le_refl _)
  refine ((Cursor.element_text .owned hheader hvalid).asKey key n).bind ?_ (Nat.le_refl _)
  rw [hname]
  exact (hfield.asValue key n).bind hrest (Nat.le_refl _)

/-! ### Unions -/

/-- What a name that stands alone leads to. -/
def nameOf (alternative? : Bytes → Bool → Option (Step α)) (name : Bytes) : Step α :=
  match alternative? name false with
  | some step => step
  | none => throw (.invalidData (.unknownVariant name))

/-- What a name leads to, where a payload comes next. -/
def payloadOf (alternative? : Bytes → Bool → Option (Step α)) (name : Bytes) : Step α :=
  match alternative? name true with
  | some step => step
  | none => throw (.invalidData (.unknownVariant name))

/-- The complaint about a union of `n` items. -/
def miscount : Container → (n : Nat) → Defect
  | .map, n => .variantEntries (n / 2)
  | .array, n => .variantElements n

/-- The name of an entry is a key. -/
def announceName : Container → Step Unit
  | .map => announceKey
  | .array => pure ()

/-- What is read inside a union that is a container: an entry, or a pair. -/
def unionIn (alternative? : Bytes → Bool → Option (Step α)) (kind : Container) : Step α := do
  let n ← elemLeft
  if n ≠ 2 then throw (.invalidData (miscount kind n))
  announceName kind
  payloadOf alternative? (← Cursor.text .owned)

/-- What is read as a union, by what comes next. -/
def unionOf (alternative? : Bytes → Bool → Option (Step α)) : EntityType → Step α
  | .string => do nameOf alternative? (← Cursor.text .owned)
  | .map => inScope .map (unionIn alternative? .map)
  | .array => inScope .array (unionIn alternative? .array)
  | _ => throw (.unexpectedFormat .noVariant)

theorem restoreVariant_eq (alternative? : Bytes → Bool → Option (Step α)) :
    restoreVariant alternative? = Cursor.typeNext >>= unionOf alternative? := by
  rw [restoreVariant, Cursor.beginVariant, bind_assoc]
  refine bind_congr fun e => ?_
  cases e with
  | string =>
      simp only [bind_assoc, pure_bind]
      refine bind_congr fun name => ?_
      dsimp only [VariantShape.hasPayload, nameOf]
      cases alternative? name false with
      | some step => exact bind_pure step
      | none => rfl
  | map =>
      simp only [unionOf, unionIn, inScope, bind_assoc]
      refine bind_congr fun key => bind_congr fun n => ?_
      split
      · rfl
      · simp only [bind_assoc, pure_bind]
        refine bind_congr fun _ => bind_congr fun name => ?_
        dsimp only [VariantShape.hasPayload, payloadOf]
        cases alternative? name true <;> rfl
  | array =>
      simp only [unionOf, unionIn, inScope, bind_assoc]
      refine bind_congr fun key => bind_congr fun n => ?_
      split
      · rfl
      · simp only [bind_assoc, pure_bind]
        refine bind_congr fun name => ?_
        dsimp only [VariantShape.hasPayload, payloadOf]
        cases alternative? name true <;> rfl
  | _ => rfl

variable {alternative? : Bytes → Bool → Option (Step α)} {name : Bytes} {step : Step α} {a : α}

theorem element_restoreVariant_name (hheader : Grammar.TextHeader header name.length)
    (hvalid : Utf8.isValid name) (hname : alternative? name false = some (pure a)) :
    Element (restoreVariant alternative?) levels (header ++ name) a := by
  rw [restoreVariant_eq]
  refine .typeNext ((begins_text hheader).append name) ?_
  refine (Cursor.element_text .owned hheader hvalid).looked ?_
  rw [nameOf, hname]

theorem element_restoreVariant_entry {nameHeader : Bytes} (hheader : Grammar.MapHeader header 1)
    (hname : Grammar.TextHeader nameHeader name.length) (hvalid : Utf8.isValid name)
    (halternative : alternative? name true = some step) (hstep : Element step levels content a) :
    Element (restoreVariant alternative?) (levels + 1)
      (header ++ ((nameHeader ++ name) ++ content)) a := by
  rw [restoreVariant_eq]
  refine .typeNext ((begins_map hheader).append _) ?_
  refine Cursor.element_inScope ⟨1, hheader, rfl⟩ fun key outer => ?_
  refine .skipTo (Cursor.reads_elemLeft _ _) ?_ (Nat.le_refl _)
  have htwo : ¬ (Frame.opened .map key (2 * 1)).remaining ≠ 2 := not_not_intro rfl
  rw [if_neg htwo]
  refine .skipTo (Cursor.reads_announceKey key 0) ?_ (Nat.le_refl _)
  refine ((Cursor.element_text .owned hname hvalid).asKey key 0).bind ?_ (Nat.le_refl _)
  rw [payloadOf, halternative]
  exact hstep.asValue key 0

end Shapes

end MsgPack
