import MsgPack.Proofs.Cursor.Skipping

/-!
Closing a scope early. However much has been read of a container, and whichever
scopes have been opened and left open inside it, what is still to come in each
of its scopes are nodes. Closing the scope passes over all of them, and so ends
where skipping the container would have.
-/

namespace MsgPack.Cursor

open Node (bytesAll WellFormedAll heightAll)

variable {α : Type} {c c' : Cursor} {f g : Frame} {fs outer base : List Frame}
  {items : List Node} {bs : Bytes} {key limit : Nat} {kind : Container} {t : Source}

/-! ### What is owed -/

/-- What is still to come in a scope: nodes that there is room for. -/
structure Due (limit : Nat) (f : Frame) (outer : List Frame) (items : List Node) : Prop where
  wellFormed : WellFormedAll items
  remaining : f.remaining = items.length
  settled : f.Settled
  room : outer.length + 1 + heightAll items ≤ limit

/-- The scope of the number `key` is open over the scopes `base`, and others
inside it. The bytes are those that are still to come in them, from the
innermost scope outward. -/
inductive Owing (limit key : Nat) (kind : Container) (base : List Frame) :
    List Frame → Bytes → Prop
  | own {f : Frame} {items : List Node} (hid : f.id = key) (hkind : f.kind = kind)
      (hdue : Due limit f base items) : Owing limit key kind base (f :: base) (bytesAll items)
  | inner {f : Frame} {outer : List Frame} {items : List Node} {bs : Bytes}
      (houter : Owing limit key kind base outer bs) (hid : f.id ≠ key)
      (hdue : Due limit f outer items) :
      Owing limit key kind base (f :: outer) (bytesAll items ++ bs)

/-- The innermost scope, with what is owed in it and around it. It may be
replaced by any scope that stands for the same container. -/
structure Owing.Top (limit key : Nat) (kind : Container) (base : List Frame) (f : Frame)
    (outer : List Frame) (items : List Node) (bs : Bytes) : Prop where
  due : Due limit f outer items
  replaced : ∀ {g : Frame} {items' : List Node}, g.id = f.id → g.kind = f.kind →
    Due limit g outer items' → Owing limit key kind base (g :: outer) (bytesAll items' ++ bs)
  below : outer = base ∧ bs = [] ∨ Owing limit key kind base outer bs

theorem Owing.top (h : Owing limit key kind base fs bs) :
    ∃ f outer items bs', fs = f :: outer ∧ bs = bytesAll items ++ bs' ∧
      Top limit key kind base f outer items bs' := by
  cases h with
  | @own f items hid hkind hdue =>
      refine ⟨f, base, items, [], rfl, (List.append_nil _).symm, hdue, ?_, .inl ⟨rfl, rfl⟩⟩
      intro g items' hgid hgkind hg
      rw [List.append_nil]
      exact .own (hgid.trans hid) (hgkind.trans hkind) hg
  | @inner f outer items bs' houter hid hdue =>
      refine ⟨f, outer, items, bs', rfl, rfl, hdue, ?_, .inr houter⟩
      intro g items' hgid _ hg
      exact .inner houter (hgid ▸ hid) hg

/-- The cursor is inside the scope of the number `key`, and when it has passed
over what is owed the source will be `t`. -/
structure Inside (key : Nat) (kind : Container) (base : List Frame) (t : Source) (c : Cursor) :
    Prop where
  lax : c.strict = false
  given : key ≤ c.lastId
  owing : ∃ bs, Owing c.maxDepth key kind base c.frames bs ∧ c.source.left = bs ++ t.left ∧
    c.source.advance bs.length = t

/-- The scope of the number `key` has been closed, and the number is not given
again. -/
structure Gone (key : Nat) (c : Cursor) : Prop where
  given : key ≤ c.lastId
  closed : ∀ f ∈ c.frames, f.id ≠ key

theorem stable_given (key : Nat) : Stable (key ≤ Cursor.lastId ·) where
  source _ _ := id
  altered _ _ _ _ h _ _ _ := h
  opened _ _ _ := Nat.le_succ_of_le
  popped _ := id

theorem stable_gone (key : Nat) : Stable (Gone key) where
  source c s h := ⟨h.given, h.closed⟩
  altered c f g outer h hframes hid _ := by
    have hclosed := h.closed
    rw [hframes, List.forall_mem_cons] at hclosed
    exact ⟨h.given, List.forall_mem_cons.mpr ⟨hid ▸ hclosed.1, hclosed.2⟩⟩
  opened c kind n h := by
    refine ⟨Nat.le_succ_of_le h.given, List.forall_mem_cons.mpr ⟨?_, h.closed⟩⟩
    exact Nat.ne_of_gt (Nat.lt_succ_of_le h.given)
  popped c h := ⟨h.given, fun f hf => h.closed f (List.mem_of_mem_tail hf)⟩

/-! ### Calls inside the scope -/

/-- What comes next where an element may be read, and what is owed after it. -/
theorem Inside.next (h : Inside key kind base t c) (hreadable : Readable c.frames) :
    ∃ (n : Node) (bs : Bytes), n.WellFormed ∧ n.height ≤ c.maxDepth - c.frames.length ∧
      c.source.left = n.bytes ++ (bs ++ t.left) ∧
      (c.source.advance n.bytes.length).advance bs.length = t ∧ SettledIn c.frames ∧
      Owing c.maxDepth key kind base (c.frames.modifyHead Frame.passed) bs := by
  obtain ⟨bs, howing, hl, ht⟩ := h.owing
  obtain ⟨f, outer, items, bs', hframes, rfl, htop⟩ := howing.top
  rw [hframes] at hreadable ⊢
  cases items with
  | nil => exact absurd htop.due.remaining hreadable.1
  | cons n items =>
      obtain ⟨⟨hn, hitems⟩, hremaining, hsettled, hroom⟩ := htop.due
      have hheights : max n.height (heightAll items) + (outer.length + 1) ≤ c.maxDepth := by
        rw [Nat.add_comm]
        exact hroom
      obtain ⟨hheight, hrest⟩ := Nat.max_le.mp (Nat.le_sub_of_add_le hheights)
      rw [bytesAll, List.append_assoc] at hl ht
      refine ⟨n, bytesAll items ++ bs', hn, hheight, by simp only [hl, List.append_assoc], ?_, hsettled,
        htop.replaced rfl rfl ⟨hitems, ?_, f.settled_passed, by omega⟩⟩
      · rw [Source.advance_advance, ← List.length_append]
        exact ht
      · rw [Frame.passed, hremaining]
        rfl

/-- The cursor has gone on. -/
theorem Inside.past {taken : Bytes} (h : Inside key kind base t c) (hpast : c.Past taken fs c')
    (hgiven : key ≤ c'.lastId) (howing : Owing c.maxDepth key kind base fs bs)
    (hl : c.source.left = taken ++ (bs ++ t.left))
    (ht : (c.source.advance taken.length).advance bs.length = t) : Inside key kind base t c' where
  lax := hpast.strict.trans h.lax
  given := hgiven
  owing := by
    refine ⟨bs, ?_, hpast.left hl, hpast.source ▸ ht⟩
    rw [hpast.maxDepth, hpast.frames]
    exact howing

/-- The scope is open, with what is owed still to come, or it has been closed. -/
def OpenOrGone (key : Nat) (kind : Container) (base : List Frame) (t : Source) (c : Cursor) :
    Prop :=
  Inside key kind base t c ∨ Gone key c

/-- It is for the cursors inside the scope to be followed. -/
theorem keeps_openOrGone {step : Step α} (hgone : Keeps (Gone key) (Gone key) step)
    (h : ∀ c a c', Inside key kind base t c → step c = .ok a c' →
      OpenOrGone key kind base t c') :
    Keeps (OpenOrGone key kind base t) (fun _ => True) step := by
  intro c hc
  cases hstep : step c with
  | error e c' => exact .error trivial
  | ok a c' =>
      obtain hinside | hc := hc
      · exact .ok (h c a c' hinside hstep)
      · exact .ok (.inr (hgone.ok hc hstep))

/-- Where a node comes next that there is room for, it is that node which is
opened, and its items are due in the new scope. -/
theorem beginScope_of_node {n : Node} {rest : Bytes} {number : Nat} (hn : n.WellFormed)
    (hheight : n.height ≤ c.maxDepth - c.frames.length) (hsettled : SettledIn c.frames)
    (hl : c.source.left = n.bytes ++ rest) (h : beginScope kind c = .ok number c') :
    number = c.lastId + 1 ∧ c'.lastId = number ∧
      ∃ header items, n = .container kind header items ∧
        c.Past header (.opened kind number items.length :: c.frames.modifyHead Frame.passed) c' ∧
        Due c.maxDepth (.opened kind number items.length) (c.frames.modifyHead Frame.passed)
          items := by
  obtain ⟨hreadable, hroom, -, header, count, rest', hopening, hheader, -⟩ := beginScope_inv h
  obtain ⟨header', items, rfl⟩ :=
    hn.container_of_begins hopening.begins (hl.symm.trans hheader)
  obtain ⟨hopening', hitems⟩ := hn
  rw [Node.bytes, List.append_assoc] at hl
  rw [beginScope_of_room hopening' hreadable hl hroom, modifyHead_stepped hsettled] at h
  cases h
  refine ⟨rfl, rfl, header', items, rfl, ⟨rfl, rfl, rfl, rfl, rfl⟩, hitems, rfl,
    fun hpending => Bool.noConfusion hpending, ?_⟩
  rw [Node.height] at hheight
  rw [length_modifyHead]
  omega

theorem Inside.enter {number : Nat} {kind' : Container} (h : Inside key kind base t c)
    (hbegin : beginScope kind' c = .ok number c') : Inside key kind base t c' := by
  obtain ⟨hreadable, -⟩ := beginScope_inv hbegin
  obtain ⟨n, bs, hn, hheight, hl, ht, hsettled, howing⟩ := h.next hreadable
  obtain ⟨rfl, hlast, header, items, rfl, hpast, hdue⟩ :=
    beginScope_of_node hn hheight hsettled hl hbegin
  have hlt : key < c.lastId + 1 := Nat.lt_succ_of_le h.given
  rw [Node.bytes] at hl ht
  refine h.past hpast (hlast ▸ Nat.le_of_lt hlt) (.inner howing (Nat.ne_of_gt hlt) hdue) ?_ ?_
  · rw [hl]
    simp only [List.append_assoc]
  · rw [← ht]
    simp only [Source.advance_advance, List.length_append, Nat.add_assoc]

theorem given_of_step {step : Step α} {a : α} (h : Inside key kind base t c)
    (hkeeps : Keeps (key ≤ Cursor.lastId ·) (key ≤ Cursor.lastId ·) step)
    (hstep : step c = .ok a c') : key ≤ c'.lastId :=
  hkeeps.ok h.given hstep

theorem Inside.skip (h : Inside key kind base t c) (hskip : skip c = .ok () c') :
    Inside key kind base t c' := by
  have hreadable := readable_of_ok hskip
  obtain ⟨n, bs, hn, hheight, hl, ht, hsettled, howing⟩ := h.next hreadable
  obtain ⟨c'', hskip', hpast⟩ := skip_of_node hn hheight hreadable hsettled hl
  cases hskip'.symm.trans hskip
  exact h.past hpast (given_of_step h (stable_given key).closed.kept.skip hskip) howing hl ht

theorem Inside.leaf {g : Get α} {a : α} (hg : g.OfLeaves) (h : Inside key kind base t c)
    (hleaf : leaf g c = .ok a c') : Inside key kind base t c' := by
  obtain ⟨hreadable, s, hrun, rfl⟩ := leaf_inv hleaf
  obtain ⟨n, bs, hn, hheight, hl, ht, hsettled, howing⟩ := h.next hreadable
  obtain ⟨taken, rest, htaken, hwhole, rfl⟩ := hg.whole _ _ _ hrun
  obtain rfl := hn.leaf_of_leaf hwhole (hl.symm.trans htaken)
  rw [modifyHead_stepped hsettled]
  exact h.past ⟨rfl, rfl, rfl, rfl, rfl⟩ h.given howing hl ht

theorem Inside.announce (h : Inside key kind base t c) (hkey : announceKey c = .ok () c') :
    Inside key kind base t c' := by
  obtain ⟨bs, howing, hl, ht⟩ := h.owing
  obtain ⟨f, outer, items, bs', hframes, rfl, htop⟩ := howing.top
  obtain ⟨e, hfail⟩ | ⟨f', outer', hframes', hat, hdone⟩ := announceKey_cases c
  · cases hfail.symm.trans hkey
  · cases hdone.symm.trans hkey
    cases hframes.symm.trans hframes'
    have hdue : Due c.maxDepth { f with keyPending := true } outer items :=
      ⟨htop.due.wellFormed, htop.due.remaining, fun _ => hat, htop.due.room⟩
    exact ⟨h.lax, h.given, _, htop.replaced rfl rfl hdue, hl, ht⟩

/-- Closing the innermost scope passes over what is owed in it. -/
theorem Inside.close {strict : Bool} (h : Inside key kind base t c)
    (hbase : ∀ f ∈ base, f.id ≠ key) (hclose : closeInnermost strict c = .ok () c') :
    OpenOrGone key kind base t c' := by
  have hgiven := given_of_step h ((stable_given key).closed.closeInnermost strict) hclose
  obtain ⟨bs, howing, hl, ht⟩ := h.owing
  obtain ⟨f, outer, items, bs', hframes, rfl, htop⟩ := howing.top
  rw [closeInnermost, bind_of_ok (innermost_of_frames hframes)] at hclose
  split at hclose
  · cases hclose
  · rw [List.append_assoc] at hl
    have hdrain := drainWith_completes (passes_skipWithin (c.maxDepth - c.frames.length))
      htop.due.wellFormed hframes htop.due.remaining htop.due.settled hl (by omega)
    have hpast := hdrain.of_ok hclose
    obtain ⟨rfl, -⟩ | hbelow := htop.below
    · exact .inr ⟨hgiven, hpast.frames ▸ hbase⟩
    · refine .inl (h.past hpast hgiven hbelow hl ?_)
      rw [Source.advance_advance, ← List.length_append]
      exact ht

theorem kept_openOrGone (hbase : ∀ f ∈ base, f.id ≠ key) :
    Kept (OpenOrGone key kind base t) fun _ => True where
  weaken _ _ := trivial
  enter kind' := keeps_openOrGone ((stable_gone key).closed.beginScope kind')
    fun c number c' h hbegin => .inl (h.enter hbegin)
  leave kind' number := by
    have hclose : ∀ strict, Keeps (OpenOrGone key kind base t) (fun _ => True)
        (closeInnermost strict) := fun strict =>
      keeps_openOrGone ((stable_gone key).closed.closeInnermost strict) fun c _ c' h hclose =>
        h.close hbase hclose
    refine Keeps.bind (.of_looks (fun _ _ => trivial) (.scopesUpTo kind' number)) fun n => ?_
    exact Keeps.bind (.of_looks (fun _ _ => trivial) .get) fun c => (hclose c.strict).times n
  key := keeps_openOrGone (stable_gone key).closed.announceKey fun c _ c' h hkey =>
    .inl (h.announce hkey)
  skip := keeps_openOrGone (stable_gone key).closed.kept.skip fun c _ c' h hskip =>
    .inl (h.skip hskip)
  leaf g hg := keeps_openOrGone ((stable_gone key).closed.leaf g) fun c _ c' h hleaf =>
    .inl (h.leaf hg hleaf)

/-! ### Closing the scope -/

/-- There is room for all that is owed in a scope. -/
theorem close_due {rest : Bytes} (h : Due c.maxDepth f outer items) (hframes : c.frames = f :: outer)
    (hl : c.source.left = bytesAll items ++ rest) :
    ∃ c', closeInnermost false c = .ok () c' ∧ c.Past (bytesAll items) outer c' := by
  have hdrain := drainWith_completes (passes_skipWithin (c.maxDepth - c.frames.length))
    h.wellFormed hframes h.remaining h.settled hl (by omega)
  have hroom := h.room
  rw [closeInnermost_of_lax hframes]
  refine hdrain.of_room ?_
  rw [hframes, List.length_cons]
  omega

/-- The scope is found, and closing it and those inside it passes over all that
is owed. -/
theorem Owing.closes (h : Owing limit key kind base fs bs) :
    ∃ i f, fs.findIdx? (fun f => (f.id : Int) == key) = some i ∧ fs[i]? = some f ∧ f.kind = kind ∧
      ∀ (c : Cursor) (rest : Bytes), c.frames = fs → c.maxDepth = limit →
        c.source.left = bs ++ rest →
        ∃ c', times (closeInnermost false) (i + 1) c = .ok () c' ∧ c.Past bs base c' := by
  induction h with
  | @own f items hid hkind hdue =>
      refine ⟨0, f, ?_, rfl, hkind, ?_⟩
      · rw [List.findIdx?_cons, hid]
        simp
      · rintro c rest hframes rfl hl
        obtain ⟨c', hclose, hpast⟩ := close_due hdue hframes hl
        exact ⟨c', bind_of_ok hclose, hpast⟩
  | @inner f outer items bs' houter hid hdue ih =>
      obtain ⟨i, own, hfind, hown, hkind, hcloses⟩ := ih
      refine ⟨i + 1, own, ?_, hown, hkind, ?_⟩
      · have hother : ((f.id : Int) == key) = false :=
          beq_eq_false_iff_ne.mpr fun heq => hid (Int.ofNat.inj heq)
        rw [List.findIdx?_cons, hother, hfind]
        rfl
      · rintro c rest hframes rfl hl
        rw [List.append_assoc] at hl
        obtain ⟨c', hclose, hpast⟩ := close_due hdue hframes hl
        obtain ⟨c'', hrest, hpast'⟩ := hcloses c' rest hpast.frames hpast.maxDepth (hpast.left hl)
        exact ⟨c'', (bind_of_ok hclose).trans hrest, hpast.trans hpast'⟩

theorem Inside.endScope (h : Inside key kind base t c) :
    ∃ c', endScope kind key c = .ok () c' ∧ c'.source = t ∧ c'.frames = base := by
  obtain ⟨bs, howing, hl, ht⟩ := h.owing
  obtain ⟨i, f, hfind, hf, hkind, hcloses⟩ := howing.closes
  obtain ⟨c', hclose, hpast⟩ := hcloses c _ rfl rfl hl
  have hupTo : scopesUpTo kind key c = .ok (i + 1) c := by
    rw [scopesUpTo, bind_apply, get_apply]
    dsimp only
    rw [hfind]
    dsimp only
    rw [hf]
    dsimp only
    rw [if_pos hkind]
    rfl
  refine ⟨c', ?_, hpast.source.trans ht, hpast.frames⟩
  rw [Cursor.endScope, bind_of_ok hupTo, bind_apply, get_apply]
  dsimp only
  rw [h.lax]
  exact hclose

/-- Calls in a row, up to the first that fails. -/
theorem keeps_moves {p q : Cursor → Prop} (h : Kept p q) (calls : List Move) :
    Keeps p q (calls.forM Move.step) := by
  induction calls with
  | nil => exact .pure ()
  | cons call calls ih => exact (h.move call).bind fun _ => ih

/-- Closing a scope early is skipping its container. Wherever calls have led a
cursor that is not strict, let a container come next that can be skipped. If it
is opened instead, whatever is called then, as long as the calls succeed and the
scope is still open after them, it can be closed with the number that it got,
and the cursor is where skipping the container leads, with the same scopes
open. -/
theorem endScope_eq_skip {d c₁ c₂ : Cursor} {calls : List Move} (h : Reachable c)
    (hlax : c.strict = false) (hskip : skip c = .ok () d)
    (hbegin : beginScope kind c = .ok key c₁) (hcalls : calls.forM Move.step c₁ = .ok () c₂)
    (hopen : key ∈ c₂.frames.map Frame.id) :
    ∃ c₃, endScope kind key c₂ = .ok () c₃ ∧ c₃.source = d.source ∧ c₃.frames = d.frames := by
  have hsettled := h.orderly.settledIn
  obtain ⟨-, n, rest, hn, hheight, hl, hpast⟩ := node_of_skip hsettled hskip
  obtain ⟨rfl, hlast, header, items, rfl, hopened, hdue⟩ :=
    beginScope_of_node hn hheight hsettled hl hbegin
  have hl' : c.source.left = header ++ (bytesAll items ++ rest) := by
    rw [hl, Node.bytes, List.append_assoc]
  have hinside : Inside (c.lastId + 1) kind (c.frames.modifyHead Frame.passed) d.source c₁ := by
    refine ⟨hopened.strict.trans hlax, Nat.le_of_eq hlast.symm, bytesAll items, ?_, ?_, ?_⟩
    · rw [hopened.maxDepth, hopened.frames]
      exact .own rfl rfl hdue
    · rw [hpast.left hl]
      exact hopened.left hl'
    · rw [hopened.source, hpast.source, Node.bytes, List.length_append]
      exact Source.advance_advance ..
  have hbase : ∀ f ∈ c.frames.modifyHead Frame.passed, f.id ≠ c.lastId + 1 :=
    fun f hf => Nat.ne_of_lt (h.orderly.lt_of_passed f hf)
  obtain hinside | hgone := (keeps_moves (kept_openOrGone hbase) calls).ok (.inl hinside) hcalls
  · obtain ⟨c₃, hend, hsource, hframes⟩ := hinside.endScope
    exact ⟨c₃, hend, hsource, hframes.trans hpast.frames.symm⟩
  · obtain ⟨f, hf, hid⟩ := List.mem_map.mp hopen
    exact absurd hid (hgone.closed f hf)

/-- Before an array of a number, a map and a number, with one more behind it. -/
def beforeArray : Cursor :=
  { maxDepth := 3, source := .ofBytes .memory [0x93, 0x01, 0x81, 0x02, 0x91, 0x03, 0x04, 0x05] }

/-- In the map, with its key announced and not read. -/
def beforeKey : Cursor :=
  { maxDepth := 3, source := ⟨.memory, [0x02, 0x91, 0x03, 0x04, 0x05], 3⟩,
    frames := [announced 2 0, .opened .array 1 1], lastId := 2 }

/-- The array is closed from within the map. -/
theorem endScope_eq_skip_announced :
    ∃ (d c₁ : Cursor) (calls : List Move), Reachable beforeArray ∧ beforeArray.strict = false ∧
      skip beforeArray = .ok () d ∧ beginScope .array beforeArray = .ok 1 c₁ ∧
      calls.forM Move.step c₁ = .ok () beforeKey ∧ 1 ∈ beforeKey.frames.map Frame.id ∧
      ∃ c₃, endScope .array (1 : Nat) beforeKey = .ok () c₃ ∧ c₃.source = d.source ∧
        c₃.frames = d.frames := by
  have hreachable : Reachable beforeArray := .fresh .widening 3 false .memory _
  have hvalue : ∃ v, Storage.value .owned 3 beforeArray.source = .ok v ⟨.memory, [0x05], 7⟩ :=
    ⟨_, rfl⟩
  obtain ⟨v, hvalue⟩ := hvalue
  obtain ⟨d, hskip, -⟩ := skip_of_value hreachable.orderly.settledIn trivial hvalue
  have hbegin : beginScope .array beforeArray = .ok 1
      { maxDepth := 3, source := ⟨.memory, [0x01, 0x81, 0x02, 0x91, 0x03, 0x04, 0x05], 1⟩,
        frames := [.opened .array 1 3], lastId := 1 } := rfl
  have hcalls : [Move.read .number Number.zero, .enter .map, .key].forM Move.step
      { maxDepth := 3, source := ⟨.memory, [0x01, 0x81, 0x02, 0x91, 0x03, 0x04, 0x05], 1⟩,
        frames := [.opened .array 1 3], lastId := 1 } = .ok () beforeKey := rfl
  have hopen : 1 ∈ beforeKey.frames.map Frame.id := by decide
  exact ⟨_, _, _, hreachable, rfl, hskip, hbegin, hcalls, hopen,
    endScope_eq_skip hreachable rfl hskip hbegin hcalls hopen⟩

end MsgPack.Cursor
