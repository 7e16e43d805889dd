import MsgPack.Proofs.Schema.Fits
import MsgPack.Schema.Order

/-!
The order of objects is one, as long as no NaN is among them. A NaN is level
with every number, and then two numbers are level with a third that are not
level with each other; of all other objects those that are level can stand for
one another. Comparisons are made of comparisons, of kinds before contents, of
parts one after another or of lists element by element, and each way of making
them keeps the laws.
-/

namespace MsgPack

/-! ### Comparisons that order -/

/-- How a first compares to a second, the second to a third, and the first to
the third, where all three are in order. -/
structure Coherent (a b c : Ordering) : Prop where
  left : a = .eq → c = b
  right : b = .eq → c = a
  both : a = b → c = a

theorem Coherent.level (b : Ordering) : Coherent .eq b b := ⟨fun _ => rfl, id, Eq.symm⟩

/-- What is compared in the second place counts only where the first place is
level. -/
theorem Coherent.andThen {a b c a' b' c' : Ordering} (h : Coherent a b c)
    (h' : a = .eq → b = .eq → Coherent a' b' c') :
    Coherent (a.then a') (b.then b') (c.then c') := by
  cases a with
  | eq =>
      obtain rfl := h.left rfl
      cases c with
      | eq => exact h' rfl rfl
      | lt | gt => exact ⟨fun _ => rfl, Ordering.noConfusion, Eq.symm⟩
  | lt | gt =>
      cases b with
      | eq => obtain rfl := h.right rfl; exact ⟨Ordering.noConfusion, fun _ => rfl, fun _ => rfl⟩
      | lt | gt =>
          refine ⟨Ordering.noConfusion, Ordering.noConfusion, fun hab => ?_⟩
          obtain rfl := h.both hab
          rfl

/-- A comparison puts the objects of `P` in an order, in which several may be
level. -/
structure Orders {α : Type} (cmp : α → α → Ordering) (P : α → Prop) : Prop where
  swap (x y : α) : cmp y x = (cmp x y).swap
  coherent {x y z : α} : P x → P y → P z → Coherent (cmp x y) (cmp y z) (cmp x z)

/-- Objects of different kinds are told apart by their kinds. -/
def KindFirst {α : Type} (cmp : α → α → Ordering) (kind : α → Nat) : Prop :=
  ∀ x y, cmp x y = (compare (kind x) (kind y)).then (cmp x y)

section Laws

variable {α β : Type} {cmp : α → α → Ordering} {P : α → Prop}

namespace Orders

variable {x y z : α}

theorem refl (h : Orders cmp P) (x : α) : cmp x x = .eq := by
  have hself := h.swap x x
  cases hcmp : cmp x x <;> rw [hcmp] at hself <;> first | rfl | cases hself

theorem gt_iff (h : Orders cmp P) : cmp x y = .gt ↔ cmp y x = .lt := by
  rw [h.swap x y]
  exact Ordering.swap_eq_lt.symm

theorem eq_comm (h : Orders cmp P) : cmp x y = .eq ↔ cmp y x = .eq := by
  rw [h.swap x y]
  exact Ordering.swap_eq_eq.symm

theorem lt_trans (h : Orders cmp P) (hx : P x) (hy : P y) (hz : P z) (hxy : cmp x y = .lt)
    (hyz : cmp y z = .lt) : cmp x z = .lt :=
  ((h.coherent hx hy hz).both (hxy.trans hyz.symm)).trans hxy

/-! ### What is ordered -/

theorem mono {Q : α → Prop} (h : Orders cmp P) (hQ : ∀ x, Q x → P x) : Orders cmp Q :=
  ⟨h.swap, fun hx hy hz => h.coherent (hQ _ hx) (hQ _ hy) (hQ _ hz)⟩

/-- What puts everything in order orders what is left of it. -/
theorem everywhere (h : Orders cmp fun _ => True) : Orders cmp P := h.mono fun _ _ => ⟨⟩

theorem level : Orders (fun (_ _ : α) => .eq) fun _ => True :=
  ⟨fun _ _ => rfl, fun _ _ _ => .level _⟩

/-- Objects are ordered by what they are worth. -/
theorem by_worth [Ord β] [Std.TransOrd β] (worth : α → β) :
    Orders (fun x y => compare (worth x) (worth y)) fun _ => True where
  swap _ _ := Std.OrientedCmp.eq_swap
  coherent {x y z} _ _ _ := by
    refine ⟨Std.TransCmp.congr_left, fun h => (Std.TransCmp.congr_right h).symm, fun h => ?_⟩
    cases hxy : compare (worth x) (worth y) with
    | lt => exact Std.TransCmp.lt_trans hxy (h ▸ hxy)
    | eq => exact (Std.TransCmp.congr_left hxy).trans (h ▸ hxy)
    | gt => exact Std.TransCmp.gt_trans hxy (h ▸ hxy)

/-- Objects are ordered by a part of them. -/
theorem by_part (h : Orders cmp P) (part : β → α) :
    Orders (fun x y => cmp (part x) (part y)) (fun x => P (part x)) :=
  ⟨fun x y => h.swap (part x) (part y), fun hx hy hz => h.coherent hx hy hz⟩

theorem andThen {cmp' : α → α → Ordering} (h : Orders cmp P) (h' : Orders cmp' P) :
    Orders (fun x y => (cmp x y).then (cmp' x y)) P where
  swap x y := by rw [Ordering.swap_then, h.swap, h'.swap]
  coherent hx hy hz := (h.coherent hx hy hz).andThen fun _ _ => h'.coherent hx hy hz

theorem pair {cmp' : β → β → Ordering} {Q : β → Prop} (h : Orders cmp P) (h' : Orders cmp' Q) :
    Orders (Order.pair cmp cmp') (fun e => P e.1 ∧ Q e.2) :=
  ((h.by_part Prod.fst).mono fun _ he => he.1).andThen
    ((h'.by_part Prod.snd).mono fun _ he => he.2)

end Orders

namespace KindFirst

variable {kind : α → Nat} {x y z : α}

theorem swap (h : KindFirst cmp kind) (hsame : kind x = kind y → cmp y x = (cmp x y).swap) :
    cmp y x = (cmp x y).swap := by
  rw [h x y, h y x, Ordering.swap_then, Nat.compare_swap]
  by_cases hxy : kind x = kind y
  · rw [hsame hxy]
  · cases hyx : compare (kind y) (kind x) with
    | eq => exact absurd (Nat.compare_eq_eq.mp hyx).symm hxy
    | lt | gt => rfl

theorem coherent (h : KindFirst cmp kind)
    (hsame : kind x = kind y → kind y = kind z → Coherent (cmp x y) (cmp y z) (cmp x z)) :
    Coherent (cmp x y) (cmp y z) (cmp x z) := by
  have hkinds := (Orders.by_worth kind).coherent (x := x) (y := y) (z := z) ⟨⟩ ⟨⟩ ⟨⟩
  have hboth := hkinds.andThen fun hxy hyz =>
    hsame (Nat.compare_eq_eq.mp hxy) (Nat.compare_eq_eq.mp hyz)
  rwa [← h, ← h, ← h] at hboth

end KindFirst

/-- Lists are in the order of their first elements that differ, one that goes on
behind one that has ended. -/
theorem Orders.list (h : Orders cmp P) :
    Orders (fun xs ys : List α => xs.compareLex cmp ys) (fun xs => ∀ x ∈ xs, P x) where
  swap xs ys := by
    induction xs generalizing ys with
    | nil => cases ys <;> rfl
    | cons x xs ih =>
        cases ys with
        | nil => rfl
        | cons y ys => simp only [List.compareLex_cons_cons, Ordering.swap_then, h.swap x y, ih]
  coherent {xs ys zs} hx hy hz := by
    have hkind : KindFirst (fun xs ys : List α => xs.compareLex cmp ys)
        fun xs => (!xs.isEmpty).toNat := by
      rintro (_ | ⟨x, xs⟩) (_ | ⟨y, ys⟩) <;> rfl
    induction xs generalizing ys zs with
    | nil =>
        refine hkind.coherent fun hxy hyz => ?_
        cases ys with
        | nil => exact .level _
        | cons y ys => cases hxy
    | cons x xs ih =>
        refine hkind.coherent fun hxy hyz => ?_
        cases ys with
        | nil => cases hxy
        | cons y ys =>
            cases zs with
            | nil => cases hyz
            | cons z zs =>
                rw [List.forall_mem_cons] at hx hy hz
                simp only [List.compareLex_cons_cons]
                exact (h.coherent hx.1 hy.1 hz.1).andThen fun _ _ => ih hx.2 hy.2 hz.2

end Laws

/-! ### Objects without NaNs -/

/-- Whether a tree is something other than a NaN. -/
def Tree.Comparable : Tree → Prop
  | .float _ x => ¬ x.isNaN
  | _ => True

/-- Whether no NaN is part of an object. -/
def Schema.Comparable (s : Schema) (x : s.Val) : Prop := (s.tree x).Everywhere Tree.Comparable

theorem FloatBits.compare_of_isNaN {p : Precision} {x y : FloatBits p} (h : y.isNaN) :
    x.compare y = .eq := by
  simp [FloatBits.compare, h]

theorem FloatBits.orders {p : Precision} :
    Orders (FloatBits.compare (p := p)) (fun x => ¬ x.isNaN) where
  swap x y := by
    rw [FloatBits.compare, FloatBits.compare, Bool.or_comm]
    split
    · rfl
    · exact Std.OrientedCmp.eq_swap
  coherent {x y z} hx hy hz := by
    have hworth := (Orders.by_worth fun x : FloatBits p =>
      if x.negative then -(x.magnitude : Int) else x.magnitude).coherent (x := x) (y := y) (z := z)
      ⟨⟩ ⟨⟩ ⟨⟩
    simpa [FloatBits.compare, hx, hy, hz] using hworth

/-- A NaN between one and two. -/
example :
    let one : Single := ⟨false, 0x3f800000, by decide⟩
    let nan : Single := ⟨false, 0x7fc00000, by decide⟩
    let two : Single := ⟨false, 0x40000000, by decide⟩
    one.compare nan = .eq ∧ nan.compare two = .eq ∧ one.compare two = .lt := by decide

namespace Order

theorem bytes_orders : Orders bytes fun _ => True :=
  (Orders.by_worth UInt8.toNat).list.mono fun _ _ _ _ => ⟨⟩

theorem extension_orders : Orders extension fun _ => True :=
  (Orders.by_worth fun e : Extension => e.type.toInt).andThen
    (bytes_orders.by_part fun e : Extension => e.data)

theorem number_kindFirst : KindFirst number fun n => (!n.isInteger).toNat := by
  intro m n
  cases m <;> cases n <;> rfl

theorem number_orders : Orders number fun n => n.tree.Everywhere Tree.Comparable where
  swap m n := by
    refine number_kindFirst.swap fun hkind => ?_
    cases m with
    | int i =>
        cases n with
        | int j => exact (Orders.by_worth fun i : WireInt => i.val).swap i j
        | float y => cases hkind
    | float x =>
        cases n with
        | int j => cases hkind
        | float y => exact FloatBits.orders.swap x y
  coherent {l m n} hl hm hn := by
    refine number_kindFirst.coherent fun hlm hmn => ?_
    cases l with
    | int i =>
        cases m with
        | float y => cases hlm
        | int j =>
            cases n with
            | float z => cases hmn
            | int k =>
                exact (Orders.by_worth fun i : WireInt => i.val).coherent ⟨⟩ ⟨⟩ ⟨⟩
    | float x =>
        cases m with
        | int j => cases hlm
        | float y =>
            cases n with
            | int k => cases hmn
            | float z => exact FloatBits.orders.coherent hl hm hn

theorem value_kindFirst : KindFirst value fun v => kindRank v.kind := by
  intro v w
  cases v <;> cases w <;> rfl

theorem values_kindFirst : KindFirst values fun vs => (!vs.isEmpty).toNat := by
  rintro (_ | ⟨v, vs⟩) (_ | ⟨w, ws⟩) <;> rfl

theorem entries_kindFirst : KindFirst entries fun es => (!es.isEmpty).toNat := by
  rintro (_ | ⟨d, ds⟩) (_ | ⟨e, es⟩) <;> rfl

/-- Values of one kind, with what they hold. -/
inductive SameKind : OwnedValue → OwnedValue → Prop
  | nil : SameKind .nil .nil
  | bool (a b : Bool) : SameKind (.bool a) (.bool b)
  | binary (a b : Bytes) : SameKind (.binary a) (.binary b)
  | extension (s : Int8) (a : Bytes) (t : Int8) (b : Bytes) :
      SameKind (.extension s a) (.extension t b)
  | number (a b : Number) : SameKind (.number a) (.number b)
  | string (a b : Bytes) : SameKind (.string a) (.string b)
  | array (as bs : List OwnedValue) : SameKind (.array as) (.array bs)
  | map (as bs : List (OwnedValue × OwnedValue)) : SameKind (.map as) (.map bs)

theorem SameKind.of_kindRank {v w : OwnedValue} (h : kindRank v.kind = kindRank w.kind) :
    SameKind v w := by
  cases v <;> cases w <;> first | constructor | cases h

mutual

theorem value_swap (v w : OwnedValue) : value w v = (value v w).swap := by
  refine value_kindFirst.swap fun hkind => ?_
  have hsame := SameKind.of_kindRank hkind
  cases v with
  | nil => cases hsame; rfl
  | bool a => cases hsame; exact (Orders.by_worth Bool.toNat).swap a _
  | binary a => cases hsame; exact bytes_orders.swap a _
  | extension s a => cases hsame; exact extension_orders.swap ⟨s, a⟩ _
  | number a => cases hsame; exact number_orders.swap a _
  | string a => cases hsame; exact bytes_orders.swap a _
  | array as => cases hsame; exact values_swap as _
  | map as => cases hsame; exact entries_swap as _
termination_by structural v

theorem values_swap (vs ws : List OwnedValue) : values ws vs = (values vs ws).swap := by
  cases vs with
  | nil => cases ws <;> rfl
  | cons v vs =>
      cases ws with
      | nil => rfl
      | cons w ws => rw [values, values, Ordering.swap_then, value_swap v w, values_swap vs ws]
termination_by structural vs

theorem entries_swap (es fs : List (OwnedValue × OwnedValue)) :
    entries fs es = (entries es fs).swap := by
  cases es with
  | nil => cases fs <;> rfl
  | cons e es =>
      obtain ⟨j, v⟩ := e
      cases fs with
      | nil => rfl
      | cons f fs =>
          obtain ⟨k, w⟩ := f
          rw [entries, entries, Ordering.swap_then, Ordering.swap_then, value_swap j k,
            value_swap v w, entries_swap es fs]
termination_by structural es

end

mutual

theorem value_coherent (u v w : OwnedValue) (hu : u.tree.Everywhere Tree.Comparable)
    (hv : v.tree.Everywhere Tree.Comparable) (hw : w.tree.Everywhere Tree.Comparable) :
    Coherent (value u v) (value v w) (value u w) := by
  refine value_kindFirst.coherent fun huv hvw => ?_
  have huv := SameKind.of_kindRank huv
  have hvw := SameKind.of_kindRank hvw
  cases u with
  | nil => cases huv; cases hvw; exact .level _
  | bool a =>
      cases huv
      cases hvw
      exact (Orders.by_worth Bool.toNat).coherent ⟨⟩ ⟨⟩ ⟨⟩
  | binary a => cases huv; cases hvw; exact bytes_orders.coherent ⟨⟩ ⟨⟩ ⟨⟩
  | extension s a => cases huv; cases hvw; exact extension_orders.coherent ⟨⟩ ⟨⟩ ⟨⟩
  | number a => cases huv; cases hvw; exact number_orders.coherent hu hv hw
  | string a => cases huv; cases hvw; exact bytes_orders.coherent ⟨⟩ ⟨⟩ ⟨⟩
  | array as => cases huv; cases hvw; exact values_coherent as _ _ hu.2 hv.2 hw.2
  | map as => cases huv; cases hvw; exact entries_coherent as _ _ hu.2 hv.2 hw.2
termination_by structural u

theorem values_coherent (us vs ws : List OwnedValue)
    (hus : Tree.EverywhereElems Tree.Comparable (Value.elemTrees us))
    (hvs : Tree.EverywhereElems Tree.Comparable (Value.elemTrees vs))
    (hws : Tree.EverywhereElems Tree.Comparable (Value.elemTrees ws)) :
    Coherent (values us vs) (values vs ws) (values us ws) := by
  refine values_kindFirst.coherent fun huv hvw => ?_
  cases us with
  | nil =>
      cases vs with
      | nil => exact .level _
      | cons v vs => cases huv
  | cons u us =>
      cases vs with
      | nil => cases huv
      | cons v vs =>
          cases ws with
          | nil => cases hvw
          | cons w ws =>
              rw [values, values, values]
              exact (value_coherent u v w hus.1 hvs.1 hws.1).andThen fun _ _ =>
                values_coherent us vs ws hus.2 hvs.2 hws.2
termination_by structural us

theorem entries_coherent (ds es fs : List (OwnedValue × OwnedValue))
    (hds : Tree.EverywhereEntries Tree.Comparable (Value.entryTrees ds))
    (hes : Tree.EverywhereEntries Tree.Comparable (Value.entryTrees es))
    (hfs : Tree.EverywhereEntries Tree.Comparable (Value.entryTrees fs)) :
    Coherent (entries ds es) (entries es fs) (entries ds fs) := by
  refine entries_kindFirst.coherent fun hde hef => ?_
  cases ds with
  | nil =>
      cases es with
      | nil => exact .level _
      | cons e es => cases hde
  | cons d ds =>
      obtain ⟨i, u⟩ := d
      cases es with
      | nil => cases hde
      | cons e es =>
          obtain ⟨j, v⟩ := e
          cases fs with
          | nil => cases hef
          | cons f fs =>
              obtain ⟨k, w⟩ := f
              rw [entries, entries, entries]
              have hentry := (value_coherent i j k hds.1 hes.1 hfs.1).andThen fun _ _ =>
                value_coherent u v w hds.2.1 hes.2.1 hfs.2.1
              exact hentry.andThen fun _ _ =>
                entries_coherent ds es fs hds.2.2 hes.2.2 hfs.2.2
termination_by structural ds

end

theorem value_orders : Orders value fun v => v.tree.Everywhere Tree.Comparable :=
  ⟨value_swap, value_coherent _ _ _⟩

end Order

section Schemas

variable {s : Schema}

theorem Schema.comparable_list {xs : List s.Val} :
    (list s).Comparable xs ↔ ∀ x ∈ xs, s.Comparable x := by
  show True ∧ Tree.EverywhereElems _ (xs.map s.tree) ↔ _
  rw [Tree.everywhereElems_iff, true_and, List.forall_mem_map]
  rfl

theorem Schema.comparable_map {k v : Schema} {es : List (k.Val × v.Val)} :
    (map k v).Comparable es ↔ ∀ e ∈ es, k.Comparable e.1 ∧ v.Comparable e.2 := by
  show True ∧ Tree.EverywhereEntries _ (es.map fun e => (k.tree e.1, v.tree e.2)) ↔ _
  rw [Tree.everywhereEntries_iff, true_and, List.forall_mem_map]
  rfl

/-- Whether no NaN is part of any item. -/
def Row.Comparable (r : Row) (x : r.Val) : Prop :=
  Tree.EverywhereElems Tree.Comparable (r.trees x)

/-- The names of fields are no NaNs. -/
theorem Row.comparable_fieldTrees : (r : Row) → {x : r.Val} →
    (Tree.EverywhereEntries Tree.Comparable (r.fieldTrees x) ↔ r.Comparable x)
  | .nil, _ => .rfl
  | .cons _ _ rest, (_, _) =>
      (iff_of_eq (true_and _)).trans (and_congr_right fun _ => rest.comparable_fieldTrees)

theorem Schema.option_kindFirst :
    KindFirst (option s).compare fun x : Option s.Val => x.isSome.toNat := by
  rintro (_ | x) (_ | y) <;> rfl

theorem Schema.orders_option (h : Orders s.compare s.Comparable) :
    Orders (option s).compare (option s).Comparable where
  swap x y := by
    rcases x with _ | x <;> rcases y with _ | y
    · rfl
    · rfl
    · rfl
    · exact h.swap x y
  coherent {x y z} hx hy hz := by
    refine option_kindFirst.coherent fun hxy hyz => ?_
    rcases x with _ | x <;> rcases y with _ | y
    · exact .level _
    · cases hxy
    · cases hxy
    · rcases z with _ | z
      · cases hyz
      · exact h.coherent hx hy hz

theorem Alternatives.cons_kindFirst {name : Bytes} {c : Content} {rest : Alternatives} :
    KindFirst (cons name c rest).compare fun x : c.Val ⊕ rest.Val => x.isRight.toNat := by
  rintro (x | x) (y | y) <;> rfl

theorem Alternatives.orders_cons {name : Bytes} {c : Content} {rest : Alternatives}
    (h : Orders c.compare fun x => (c.tree name x).Everywhere Tree.Comparable)
    (h' : Orders rest.compare fun x => (rest.tree x).Everywhere Tree.Comparable) :
    Orders (cons name c rest).compare
      fun x => ((cons name c rest).tree x).Everywhere Tree.Comparable where
  swap x y := by
    rcases x with x | x <;> rcases y with y | y
    · exact h.swap x y
    · rfl
    · rfl
    · exact h'.swap x y
  coherent {x y z} hx hy hz := by
    refine cons_kindFirst.coherent fun hxy hyz => ?_
    rcases x with x | x <;> rcases y with y | y
    · rcases z with z | z
      · exact h.coherent hx hy hz
      · cases hyz
    · cases hxy
    · cases hxy
    · rcases z with z | z
      · cases hyz
      · exact h'.coherent hx hy hz

mutual

/-- Objects without NaNs are in order. -/
theorem Schema.orders : (s : Schema) → Orders s.compare s.Comparable
  | .nil => Orders.level.everywhere
  | .bool => (Orders.by_worth Bool.toNat).everywhere
  | .int t _ => (Orders.by_worth fun i : t.Value => i.val).everywhere
  | .carried t => (Orders.by_worth fun i : t.Value => i.val).everywhere
  | .float _ => FloatBits.orders
  | .number => Order.number_orders
  | .char => (Orders.by_worth UInt32.toNat).everywhere
  | .text .. => Order.bytes_orders.everywhere
  | .binary _ => Order.bytes_orders.everywhere
  | .extension _ => Order.extension_orders.everywhere
  | .fixedExtension _ => (Order.extension_orders.by_part FixedExtension.ext).everywhere
  | .timestamp _ =>
      ((Orders.by_worth Timestamp.seconds).andThen
        (Orders.by_worth Timestamp.nanoseconds)).everywhere
  | .instant _ => (Orders.by_worth Instant.count).everywhere
  | .value _ => Order.value_orders
  | .list s => s.orders.list.mono fun _ hx => Schema.comparable_list.mp hx
  | .map k v => (k.orders.pair v.orders).list.mono fun _ hx => Schema.comparable_map.mp hx
  | .option s => Schema.orders_option s.orders
  | .tuple r => r.orders.mono fun _ hx => hx.2
  | .struct r => r.orders.mono fun _ hx => r.comparable_fieldTrees.mp hx.2
  | .variant a => a.orders

theorem Row.orders : (r : Row) → Orders r.compare r.Comparable
  | .nil => Orders.level.everywhere
  | .cons _ s rest => (s.orders.pair rest.orders).mono fun _ hx => hx

theorem Alternatives.orders : (a : Alternatives) →
    Orders a.compare fun x => (a.tree x).Everywhere Tree.Comparable
  | .last name c => c.orders name
  | .cons name c rest => Alternatives.orders_cons (c.orders name) rest.orders

theorem Content.orders : (c : Content) → (name : Bytes) →
    Orders c.compare fun x => (c.tree name x).Everywhere Tree.Comparable
  | .unit, _ => Orders.level.everywhere
  | .item s, _ => s.orders.mono fun _ hx => hx.2.2.1

end

end Schemas

end MsgPack
