import MsgPack.Proofs.Cursor.Relocating

/-!
What is read in place. A step is described by what it reads of a string that it
is given alone, with as many levels as there are where the string stands; there
it reads the same. Such descriptions are chained as steps are, on either kind of
source and by any policy.
-/

namespace MsgPack.Cursor

/-- What cursors have in common that read alike. -/
structure Setting where
  policy : DecodePolicy
  kind : SourceKind

namespace Setting

variable {α β : Type} {st : Setting} {fs fs' fs'' outer : List Frame} {levels : Nat}
  {bs bs' rest : Bytes} {a : α} {b : β} {step : Step α}

/-- A cursor with nothing to read but the string. -/
def alone (st : Setting) (levels : Nat) (bs : Bytes) : Cursor :=
  { policy := st.policy, maxDepth := levels, source := .ofBytes st.kind bs }

/-- Given the string alone, the step consumes it and answers `a`. -/
def Restores (st : Setting) (step : Step α) (levels : Nat) : Language α := fun bs a =>
  ∃ c, step (st.alone levels bs) = .ok a c ∧ c.source.left = []

theorem Restores.map (h : st.Restores step levels bs a) (f : α → β) :
    st.Restores (do return f (← step)) levels bs (f a) := by
  obtain ⟨c, hrun, hleft⟩ := h
  exact ⟨c, bind_of_ok hrun, hleft⟩

/-- The cursor is set so, the scopes `fs` are open, there may be `levels` more,
and `input` is what comes next. -/
structure Ready (st : Setting) (c : Cursor) (fs : List Frame) (levels : Nat) (input : Bytes) :
    Prop where
  policy : c.policy = st.policy
  kind : c.source.kind = st.kind
  frames : c.frames = fs
  room : fs.length + levels ≤ c.maxDepth
  left : c.source.left = input

/-- Wherever the string comes next, the step consumes it and answers `a`, with
the scopes `fs'` open in place of `fs`. -/
def Reads (st : Setting) (step : Step α) (fs fs' : List Frame) (levels : Nat) (bs : Bytes)
    (a : α) : Prop :=
  ∀ (c : Cursor) (rest : Bytes), st.Ready c fs levels (bs ++ rest) →
    ∃ lastId, step c = .ok a (c.moved bs.length fs' lastId)

/-- The elements that a step reads, with room for `levels` scopes. -/
def Element (st : Setting) (step : Step α) (levels : Nat) : Language α := fun bs a =>
  ∀ fs : List Frame, Readable fs → st.Reads step fs (fs.modifyHead Frame.stepped) levels bs a

theorem Ready.moved {c : Cursor} (h : st.Ready c fs levels (bs ++ rest))
    (hlen : fs'.length ≤ fs.length) (lastId : Nat) :
    st.Ready (c.moved bs.length fs' lastId) fs' levels rest where
  policy := h.policy
  kind := h.kind
  frames := rfl
  room := Nat.le_trans (Nat.add_le_add_right hlen levels) h.room
  left := Source.left_advance_length h.left

namespace Reads

theorem bind {f : α → Step β} (h : st.Reads step fs fs' levels bs a)
    (hf : st.Reads (f a) fs' fs'' levels bs' b) (hlen : fs'.length ≤ fs.length) :
    st.Reads (step >>= f) fs fs'' levels (bs ++ bs') b := by
  intro c rest hc
  rw [List.append_assoc] at hc
  obtain ⟨id, hid⟩ := h c _ hc
  obtain ⟨id', hid'⟩ := hf _ rest (hc.moved hlen id)
  refine ⟨id', ?_⟩
  rw [bind_of_ok hid, hid', moved_moved, List.length_append]

/-- Steps that read nothing and may change the scopes. -/
theorem quiet (h : ∀ c : Cursor, c.frames = fs → step c = .ok a { c with frames := fs' }) :
    st.Reads step fs fs' levels [] a :=
  fun c _ hc => ⟨c.lastId, h c hc.frames⟩

theorem pure (a : α) : st.Reads (pure a) fs fs levels [] a :=
  quiet fun _ hc => by subst hc; rfl

/-- A step that consumes nothing, before one that does. -/
theorem skipTo {f : α → Step β} (h : st.Reads step fs fs' levels [] a)
    (hf : st.Reads (f a) fs' fs'' levels bs b) (hlen : fs'.length ≤ fs.length) :
    st.Reads (step >>= f) fs fs'' levels bs b :=
  h.bind hf hlen

/-- A step that consumes nothing, after one that does. -/
theorem andThen {f : α → Step β} (h : st.Reads step fs fs' levels bs a)
    (hf : st.Reads (f a) fs' fs'' levels [] b) (hlen : fs'.length ≤ fs.length) :
    st.Reads (step >>= f) fs fs'' levels bs b := by
  have hbind := h.bind hf hlen
  rwa [List.append_nil] at hbind

theorem map (h : st.Reads step fs fs' levels bs a) (f : α → β) (hlen : fs'.length ≤ fs.length) :
    st.Reads (do return f (← step)) fs fs' levels bs (f a) :=
  h.andThen (.pure (f a)) hlen

theorem announceKey (key n : Nat) :
    st.Reads announceKey (.opened .map key (2 * (n + 1)) :: outer) (announced key n :: outer)
      levels [] () :=
  quiet fun _ => announceKey_of_frames

theorem elemLeft (kind : Container) (key n : Nat) :
    st.Reads elemLeft (.opened kind key n :: outer) (.opened kind key n :: outer) levels [] n :=
  quiet fun c hc => by rw [elemLeft_of_frames hc, ← hc]; rfl

theorem closing {kind : Container} {key n : Nat}
    (h : st.Reads step (.opened kind key n :: outer) (.opened kind key 0 :: outer) levels bs a) :
    st.Reads (do let x ← step; endScope kind key; return x) (.opened kind key n :: outer) outer
      levels bs a :=
  h.andThen (.andThen (quiet fun _ => endScope_of_frames) (.pure a) (Nat.le_succ _))
    (Nat.le_refl _)

/-- A node is passed over in the place of a value. -/
theorem skipValue {n : Node} (hn : n.WellFormed) (hheight : n.height ≤ levels) (key k : Nat) :
    st.Reads skip (.opened .map key (2 * k + 1) :: outer) (.opened .map key (2 * k) :: outer)
      levels n.bytes () := by
  intro c rest hc
  have hreadable : Readable c.frames := hc.frames ▸ readable_odd key k outer
  have hsettled : SettledIn c.frames := hc.frames ▸ Frame.settled_opened .map key (2 * k + 1)
  have hroom := hc.room
  obtain ⟨t, hskip, hpast⟩ := skip_of_node hn (by rw [hc.frames]; omega) hreadable hsettled hc.left
  rw [hc.frames] at hpast
  exact ⟨t.lastId, hskip.trans (congrArg _ hpast.eq_moved)⟩

end Reads

namespace Element

/-- What is read of a string alone is read of it in place. -/
theorem of_restores (h : ∀ tail, Portable tail step step) (hbs : st.Restores step levels bs a) :
    st.Element step levels bs a := by
  intro fs hfs c rest hc
  obtain ⟨t, hrun, hleft⟩ := hbs
  have hroom := hc.room
  have hhosts : Hosts rest (st.alone levels bs) c :=
    ⟨hc.kind, hc.policy, hc.left, by rw [hc.frames]; exact (Nat.add_comm ..).trans_le hroom⟩
  obtain ⟨n, id, id', hn, rfl, hrun', -⟩ := h rest [] fs trivial hfs _ _ _ _ rfl hc.frames hhosts
    hrun
  -- nothing is left of the string, and nothing behind it was read
  have hlen : bs.length ≤ n := List.drop_eq_nil_iff.mp hleft
  have hn : n ≤ bs.length := hn
  rw [Nat.le_antisymm hlen hn]
  exact ⟨id', hrun'⟩

theorem restores (h : st.Element step levels bs a) : st.Restores step levels bs a := by
  obtain ⟨id, hid⟩ := h [] trivial (st.alone levels bs) []
    ⟨rfl, rfl, rfl, Nat.le_of_eq (Nat.zero_add _), (List.append_nil bs).symm⟩
  exact ⟨_, hid, List.drop_length ..⟩

theorem inArray (h : st.Element step levels bs a) (key n : Nat) :
    st.Reads step (.opened .array key (n + 1) :: outer) (.opened .array key n :: outer) levels bs
      a :=
  h _ (readable_array key n outer)

theorem asKey (h : st.Element step levels bs a) (key n : Nat) :
    st.Reads step (announced key n :: outer) (.opened .map key (2 * n + 1) :: outer) levels bs
      a := by
  have hreads := h _ (readable_announced key n outer)
  rwa [List.modifyHead_cons, stepped_announced] at hreads

theorem asValue (h : st.Element step levels bs a) (key n : Nat) :
    st.Reads step (.opened .map key (2 * n + 1) :: outer) (.opened .map key (2 * n) :: outer)
      levels bs a := by
  have hreads := h _ (readable_odd key n outer)
  rwa [List.modifyHead_cons, stepped_odd] at hreads

theorem leaf {g : Get α} (h : g.FindsOn st.kind bs a) : st.Element (leaf g) levels bs a := by
  intro fs hfs c rest hc
  refine ⟨c.lastId, ?_⟩
  rw [leaf_of_ok (hc.frames ▸ hfs) (h c.source rest hc.kind hc.left), ← hc.frames]
  rfl

theorem text {header content : Bytes} (hheader : Grammar.TextHeader header content.length)
    (hvalid : Utf8.isValid content) :
    st.Element (Cursor.text .owned) levels (header ++ content) content :=
  leaf (Get.lends_text.findsOn_take ⟨header, content, _, rfl, hheader, ⟨rfl, rfl⟩, hvalid⟩
    (.inr rfl))

theorem typeNext {e : EntityType} {f : EntityType → Step α} (he : Begins bs e)
    (h : st.Element (f e) levels bs a) : st.Element (typeNext >>= f) levels bs a := by
  intro fs hfs c rest hc
  rw [bind_of_ok (typeNext_of_begins he hc.left)]
  exact h fs hfs c rest hc

/-- A container, whose content is read in a scope of its own. -/
theorem scope {kind : Container} {n : Nat} {header body : Bytes} {f : Nat → Step α}
    (hopening : kind.Opening header n)
    (hbody : ∀ key outer, st.Reads (f key) (.opened kind key n :: outer) outer levels body a) :
    st.Element (beginScope kind >>= f) (levels + 1) (header ++ body) a := by
  intro fs hfs c rest hc
  have hleft : c.source.left = header ++ (body ++ rest) := by rw [hc.left, List.append_assoc]
  have hroom := hc.room
  have hopen := beginScope_of_room hopening (hc.frames ▸ hfs) hleft (by rw [hc.frames]; omega)
  rw [hc.frames] at hopen
  have hroom' : (Frame.opened kind (c.lastId + 1) n ::
      fs.modifyHead Frame.stepped).length + levels ≤ c.maxDepth := by
    rw [List.length_cons, length_modifyHead]
    omega
  have hinside : st.Ready (c.moved header.length
      (.opened kind (c.lastId + 1) n :: fs.modifyHead Frame.stepped) (c.lastId + 1))
      (.opened kind (c.lastId + 1) n :: fs.modifyHead Frame.stepped) levels (body ++ rest) :=
    ⟨hc.policy, hc.kind, rfl, hroom', Source.left_advance_length hleft⟩
  obtain ⟨id, hid⟩ := hbody (c.lastId + 1) _ _ rest hinside
  refine ⟨id, ?_⟩
  rw [bind_of_ok hopen, hid, moved_moved, List.length_append]

theorem map (h : st.Element step levels bs a) (f : α → β) :
    st.Element (do return f (← step)) levels bs (f a) :=
  fun fs hfs => (h fs hfs).map f (Nat.le_of_eq (length_modifyHead ..))

section Entries

variable {key : Step α} {val : Step β} {n : Nat} {es : List (α × β)}

/-- The key of an entry, announced, and its value, `n` times. -/
theorem collectEntries
    (h : (Language.pair (st.Element key levels) (st.Element val levels)).repeated n bs es)
    (scope : Nat) :
    st.Reads (collect (do announceKey; return (← key, ← val)) n)
      (.opened .map scope (2 * n) :: outer) (.opened .map scope 0 :: outer) levels bs es := by
  induction n generalizing bs es with
  | zero =>
      obtain ⟨rfl, rfl⟩ := h
      exact .pure []
  | succ n ih =>
      obtain ⟨_, tail, _, rfl, ⟨kbs, vbs, x, rfl, hx, y, hy, rfl⟩, es, hes, rfl⟩ := h
      rw [collect_succ]
      -- an entry takes two of the elements that the scope has left
      have hentry : st.Reads (do announceKey; return (← key, ← val))
          (.opened .map scope (2 * (n + 1)) :: outer) (.opened .map scope (2 * n) :: outer) levels
          (kbs ++ vbs) (x, y) := by
        refine .skipTo (.announceKey scope n) ?_ (Nat.le_refl _)
        exact (hx.asKey scope n).bind ((hy.asValue scope n).map (x, ·) (Nat.le_refl _))
          (Nat.le_refl _)
      exact hentry.bind ((ih hes).map ((x, y) :: ·) (Nat.le_refl _)) (Nat.le_refl _)

theorem entries {header : Bytes} (hheader : Grammar.MapHeader header n)
    (h : (Language.pair (st.Element key levels) (st.Element val levels)).repeated n bs es) :
    st.Element (entries key val) (levels + 1) (header ++ bs) es := by
  refine .scope ⟨n, hheader, rfl⟩ fun scope outer => ?_
  refine .skipTo (.elemLeft .map scope (2 * n)) ?_ (Nat.le_refl _)
  rw [Nat.mul_div_cancel_left n Nat.two_pos]
  exact (collectEntries h scope).closing

end Entries

end Element

end Setting

end MsgPack.Cursor
