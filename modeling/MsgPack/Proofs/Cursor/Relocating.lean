import MsgPack.Proofs.Cursor.Retrying
import MsgPack.Proofs.Cursor.Scanning
import MsgPack.Proofs.Cursor.Skipping

/-!
What is read in one place is read in another. Two cursors are put side by side,
set alike, the second with at least as many levels left and with more input
behind the same front. Where the first succeeds, the second answers the same and
consumes as much; the scopes that each of them has open are changed in the same
way, though they are known by other numbers. So what is read by itself is read
inside any container that leaves it the levels that it needs.
-/

namespace MsgPack

/-! ### Readers of leaves -/

namespace Get

variable {α β : Type} {tail : Bytes}

/-- Wherever the reader succeeds it does so with more behind what it reads. -/
def Extends (tail : Bytes) (g : Get α) : Prop :=
  ∀ (s s' : Source) (a : α) (t : Source), s'.kind = s.kind → s'.left = s.left ++ tail →
    g s = .ok a t →
    ∃ n, n ≤ s.left.length ∧ t = s.advance n ∧ g s' = .ok a (s'.advance n)

theorem Extends.of_scans {streams : Prop} {least : Nat} {g : Get α} (h : Scans streams least g)
    {s s' t : Source} {a : α} (hs : s.Admitted streams) (hkind : s'.kind = s.kind)
    (hl : s'.left = s.left ++ tail) (hg : g s = .ok a t) :
    ∃ n, n ≤ s.left.length ∧ t = s.advance n ∧ g s' = .ok a (s'.advance n) := by
  have hs' : s'.Admitted streams := hs.imp_left hkind.trans
  cases h s s' s hs' hs (hl ▸ List.prefix_append _ _) with
  | ok b c n _ hn hrun hrun' =>
      cases hrun'.symm.trans hg
      exact ⟨n, hn, rfl, hrun⟩
  | short b c c' n e _ _ _ _ hrun' => cases hrun'.symm.trans hg
  | error e e' c c' _ hrun' _ => cases hrun'.symm.trans hg

/-- From a stream the reader takes only what is copied. -/
def Copies (g : Get α) (payload : α → Payload) : Prop :=
  ∀ (s t : Source) (a : α), s.kind = .stream → g s = .ok a t → (payload a).borrowed = false

theorem copies_pure {a : α} {payload : α → Payload} (h : (payload a).borrowed = false) :
    Copies (pure a) payload := by
  rintro s t b - ⟨⟩
  exact h

theorem copies_throw (e : Error) (payload : α → Payload) : Copies (throw e) payload := by
  rintro s t a - ⟨⟩

/-- What is read from a stream stays the same, whatever is asked of it. -/
theorem copies_read {n : Nat} {f : Payload → Get β} {payload : β → Payload}
    (h : ∀ p, p.borrowed = false → Copies (f p) payload) : Copies (read n >>= f) payload := by
  intro s t b hs hread
  obtain ⟨p, u, hp, hrest⟩ := bind_eq_ok_iff.mp hread
  obtain ⟨bs, rest, -, -, hu⟩ := (lends_read n).sound hp
  have hcopied : p.borrowed = false := by
    simp only [read, hs] at hp
    split at hp
    · cases hp
      rfl
    · cases hp
  have hkind : u.kind = .stream := by rw [hu, Source.kind_advance, hs]
  exact h p hcopied u t b hkind hrest

theorem Accepts.copies {g : Get α} {L : Language α} {f : α → Get β} {payload : β → Payload}
    (hg : Accepts g L) (h : ∀ a, Copies (f a) payload) : Copies (g >>= f) payload := by
  intro s t b hs hread
  obtain ⟨a, u, hgu, hrest⟩ := bind_eq_ok_iff.mp hread
  obtain ⟨bs, rest, -, -, hu⟩ := hg.sound hgu
  have hkind : u.kind = .stream := by rw [hu, Source.kind_advance, hs]
  exact h a u t b hkind hrest

theorem copies_text : Copies text id := by
  refine accepts_textHeader.copies fun n => copies_read fun p hp => ?_
  split
  · exact copies_pure hp
  · exact copies_throw _ _

theorem copies_binary : Copies binary id := by
  refine accepts_binaryHeader.copies fun n => ?_
  have h : Copies (read n >>= pure) id := copies_read fun p hp => copies_pure hp
  rwa [bind_pure] at h

theorem copies_extension : Copies extension Prod.snd :=
  accepts_extensionHeader.copies fun _ => copies_read fun _ hp => copies_pure hp

/-- Nothing is borrowed from a stream. -/
theorem Copies.not_borrowed {g : Get α} {payload : α → Payload} (hg : Copies g payload)
    {s u : Source} {a : α} (hs : s.kind = .stream) (h : g s = .ok a u) (bs : Bytes) (t : Source) :
    Storage.borrowed.take (payload a) u ≠ .ok bs t := by
  intro htake
  have hborrow : borrow (payload a) = throw (.invalidData .notBorrowable) := by
    rw [borrow, hg _ _ _ hs h]
    rfl
  obtain ⟨_, _, hview, -⟩ := bind_eq_ok_iff.mp htake
  have hview : borrow (payload a) u = _ := hview
  rw [hborrow] at hview
  cases hview

end Get

/-- What succeeds on a stream borrows nothing. -/
theorem LeafReader.owned_of_stream {α : Type} {g : Get α} {s t : Source} {a : α}
    (h : LeafReader False g) (hs : s.kind = .stream) (hg : g s = .ok a t) : LeafReader True g := by
  cases h with
  | nil => exact .nil
  | bool => exact .bool
  | number => exact .number
  | int policy t => exact .int policy t
  | float policy p => exact .float policy p
  | @text storage _ =>
      cases storage with
      | owned => exact .text fun _ => rfl
      | borrowed =>
          obtain ⟨p, u, hread, htake⟩ := bind_eq_ok_iff.mp hg
          exact absurd htake (Get.copies_text.not_borrowed hs hread a t)
  | @binary storage _ =>
      cases storage with
      | owned => exact .binary fun _ => rfl
      | borrowed =>
          obtain ⟨p, u, hread, htake⟩ := bind_eq_ok_iff.mp hg
          exact absurd htake (Get.copies_binary.not_borrowed hs hread a t)
  | @extension storage _ =>
      cases storage with
      | owned => exact .extension fun _ => rfl
      | borrowed =>
          obtain ⟨e, u, hread, hrest⟩ := bind_eq_ok_iff.mp hg
          obtain ⟨bs, v, htake, -⟩ := bind_eq_ok_iff.mp hrest
          exact absurd htake (Get.copies_extension.not_borrowed hs hread bs v)

/-- Where a leaf was read from, it looks at nothing behind it. -/
theorem LeafReader.scans_of_ok {α : Type} {g : Get α} {s t : Source} {a : α}
    (h : LeafReader False g) (hg : g s = .ok a t) :
    ∃ streams, Scans streams 1 g ∧ s.Admitted streams := by
  cases hs : s.kind with
  | memory => exact ⟨False, h.scans, .inl hs⟩
  | stream => exact ⟨True, (h.owned_of_stream hs hg).scans, .inr trivial⟩

theorem LeafReader.extends {tail : Bytes} {α : Type} {g : Get α} (h : LeafReader False g) :
    g.Extends tail := by
  intro s s' a t hkind hl hg
  obtain ⟨streams, hscans, hs⟩ := h.scans_of_ok hg
  exact Get.Extends.of_scans hscans hs hkind hl hg

namespace Cursor

variable {tail : Bytes} {α β γ : Type} {fs gs hs fs' gs' hs' outer outer' : List Frame}

/-- What comes next is told by its first byte, which stays where it is. -/
theorem typeNext_inv {c t : Cursor} {e : EntityType} (h : typeNext c = .ok e t) :
    t = c ∧ Begins c.source.left e := by
  obtain rfl : t = c := Looks.typeNext.unmoved h
  cases hl : t.source.left with
  | nil =>
      obtain ⟨err, u, hmarker⟩ := Get.peeks_marker.nil t.source t.source hl
      cases (fromSource_of_error (bind_of_error hmarker)).symm.trans h
  | cons b rest =>
      have hmarker := Get.marker_cons hl
      cases he : (Marker.ofByte b).code.entity? with
      | none => cases (typeNext_of_unknown hmarker he).symm.trans h
      | some e' =>
          cases (typeNext_of_marker hmarker he).symm.trans h
          exact ⟨rfl, b, rest, rfl, he⟩

/-! ### Two cursors side by side -/

/-- The cursor `d` is set as `c` is, with at least as many levels left and with
`tail` behind what `c` has to read. -/
structure Hosts (tail : Bytes) (c d : Cursor) : Prop where
  kind : d.source.kind = c.source.kind
  policy : d.policy = c.policy
  left : d.source.left = c.source.left ++ tail
  levels : c.maxDepth + d.frames.length ≤ d.maxDepth + c.frames.length

/-- Where the step succeeds with the scopes `fs` open, and leaves `gs` open, the
other one does the same with `fs'` and `gs'`, without getting any deeper. -/
def Carries (tail : Bytes) (step step' : Step α) (fs gs fs' gs' : List Frame) : Prop :=
  ∀ (c d t : Cursor) (a : α), c.frames = fs → d.frames = fs' → Hosts tail c d →
    step c = .ok a t →
    ∃ n id id', n ≤ c.source.left.length ∧ t = c.moved n gs id ∧
      step' d = .ok a (d.moved n gs' id') ∧ gs'.length + fs.length ≤ gs.length + fs'.length

/-- Elements that are read alike in any two scopes that have a place for one. -/
def Portable (tail : Bytes) (step step' : Step α) : Prop :=
  ∀ fs fs', Readable fs → Readable fs' →
    Carries tail step step' fs (fs.modifyHead Frame.stepped) fs' (fs'.modifyHead Frame.stepped)

theorem Hosts.moved {c d : Cursor} {n : Nat} (h : Hosts tail c d)
    (hn : n ≤ c.source.left.length)
    (hdepth : gs'.length + c.frames.length ≤ gs.length + d.frames.length) (id id' : Nat) :
    Hosts tail (c.moved n gs id) (d.moved n gs' id') where
  kind := h.kind
  policy := h.policy
  left := by
    show d.source.left.drop n = c.source.left.drop n ++ tail
    rw [h.left, List.drop_append_of_le_length hn]
  levels := by
    have hlevels := h.levels
    show c.maxDepth + gs'.length ≤ d.maxDepth + gs.length
    omega

namespace Carries

variable {step step' : Step α}

theorem pure (a : α) : Carries tail (pure a) (pure a) fs fs fs' fs' := by
  rintro c d t b rfl rfl - ⟨⟩
  exact ⟨0, c.lastId, d.lastId, Nat.zero_le _, rfl, rfl, Nat.le_of_eq (Nat.add_comm _ _)⟩

theorem of_fails (h : ∀ c t a, step c ≠ .ok a t) : Carries tail step step' fs gs fs' gs' :=
  fun c _ t a _ _ _ hrun => absurd hrun (h c t a)

theorem throw (e : Error) : Carries tail (throw e) step' fs gs fs' gs' :=
  of_fails fun _ _ _ => nofun

theorem bind {f f' : α → Step β} (h : Carries tail step step' fs gs fs' gs')
    (hf : ∀ a, Carries tail (f a) (f' a) gs hs gs' hs') :
    Carries tail (step >>= f) (step' >>= f') fs hs fs' hs' := by
  rintro c d t b rfl rfl hhosts hrun
  obtain ⟨a, c₁, hstep, hrest⟩ := bind_eq_ok_iff.mp hrun
  obtain ⟨n, id, id', hn, rfl, hstep', hdepth⟩ := h c d c₁ a rfl rfl hhosts hstep
  obtain ⟨k, id₂, id₂', hk, rfl, hrest', hdepth'⟩ :=
    hf a _ _ _ _ rfl rfl (hhosts.moved hn hdepth id id') hrest
  have hk : k ≤ (c.source.left.drop n).length := hk
  rw [List.length_drop] at hk
  refine ⟨n + k, id₂, id₂', by omega, ?_, ?_, by omega⟩
  · rw [moved_moved]
  · rw [bind_of_ok hstep', hrest', moved_moved]

theorem map (h : Carries tail step step' fs gs fs' gs') (f : α → β) :
    Carries tail (do return f (← step)) (do return f (← step')) fs gs fs' gs' :=
  h.bind fun a => .pure (f a)

/-- Steps that read nothing and may change the scopes. -/
theorem quiet {a : α} (hdepth : gs'.length + fs.length ≤ gs.length + fs'.length)
    (h : ∀ c : Cursor, c.frames = fs → step c = .ok a { c with frames := gs })
    (h' : ∀ c : Cursor, c.frames = fs' → step' c = .ok a { c with frames := gs' }) :
    Carries tail step step' fs gs fs' gs' := by
  intro c d t b hc hd _ hrun
  cases (h c hc).symm.trans hrun
  exact ⟨0, c.lastId, d.lastId, Nat.zero_le _, rfl, h' d hd, hdepth⟩

/-- There are at least as many levels left on the other side. -/
theorem levels {f f' : Nat → Step α}
    (h : ∀ m n, m ≤ n → Carries tail (f m) (f' n) fs gs fs' gs') :
    Carries tail (levelsLeft >>= f) (levelsLeft >>= f') fs gs fs' gs' := by
  intro c d t a hc hd hhosts hrun
  have hlevels := hhosts.levels
  exact h (c.maxDepth - c.frames.length) (d.maxDepth - d.frames.length) (by omega) c d t a hc hd
    hhosts hrun

theorem typeNext : Carries tail typeNext typeNext fs fs fs' fs' := by
  rintro c d t e rfl rfl hhosts hrun
  obtain ⟨rfl, he⟩ := typeNext_inv hrun
  exact ⟨0, t.lastId, d.lastId, Nat.zero_le _, rfl, typeNext_of_begins he hhosts.left,
    Nat.le_of_eq (Nat.add_comm _ _)⟩

theorem ofExcept (x : Except Error α) :
    Carries tail (Get.ofExcept x) (Get.ofExcept x) fs fs fs' fs' := by
  cases x with
  | ok a => exact .pure a
  | error e => exact .throw e

/-! ### Scopes -/

theorem elemLeft {kind : Container} {key key' n : Nat} {f f' : Nat → Step α}
    (h : Carries tail (f n) (f' n) (.opened kind key n :: outer) gs
      (.opened kind key' n :: outer') gs') :
    Carries tail (elemLeft >>= f) (elemLeft >>= f') (.opened kind key n :: outer) gs
      (.opened kind key' n :: outer') gs' := by
  intro c d t a hc hd hhosts hrun
  rw [bind_of_ok (elemLeft_of_frames hc)] at hrun
  rw [bind_of_ok (elemLeft_of_frames hd)]
  exact h c d t a hc hd hhosts hrun

theorem announceKey (key key' n : Nat) :
    Carries tail announceKey announceKey
      (.opened .map key (2 * (n + 1)) :: outer) (announced key n :: outer)
      (.opened .map key' (2 * (n + 1)) :: outer') (announced key' n :: outer') :=
  .quiet (Nat.le_of_eq (Nat.add_comm _ _)) (fun _ => announceKey_of_frames)
    fun _ => announceKey_of_frames

/-- What is passed over in one place is passed over in the other. -/
theorem skip (hfs : SettledIn fs) (hfs' : Readable fs') (hsettled : SettledIn fs') :
    Carries tail skip skip fs (fs.modifyHead Frame.passed) fs'
      (fs'.modifyHead Frame.passed) := by
  rintro c d t a rfl rfl hhosts hrun
  obtain ⟨-, n, rest, hn, hheight, hl, hpast⟩ := node_of_skip hfs hrun
  have hl' : d.source.left = n.bytes ++ (rest ++ tail) := by
    rw [hhosts.left, hl, List.append_assoc]
  have hlevels := hhosts.levels
  obtain ⟨t', hrun', hpast'⟩ := skip_of_node hn (by omega) hfs' hsettled hl'
  refine ⟨n.bytes.length, t.lastId, t'.lastId, by simp [hl], hpast.eq_moved, ?_, ?_⟩
  · rw [hrun', ← hpast'.eq_moved]
  · rw [length_modifyHead, length_modifyHead, Nat.add_comm]

theorem skipValue (key key' n : Nat) :
    Carries tail Cursor.skip Cursor.skip
      (.opened .map key (2 * n + 1) :: outer) (.opened .map key (2 * n) :: outer)
      (.opened .map key' (2 * n + 1) :: outer') (.opened .map key' (2 * n) :: outer') :=
  skip (Frame.settled_opened .map key (2 * n + 1)) (readable_odd key' n outer')
    (Frame.settled_opened .map key' (2 * n + 1))

theorem endScope (kind : Container) (key key' : Nat) :
    Carries tail (endScope kind key) (endScope kind key')
      (.opened kind key 0 :: outer) outer (.opened kind key' 0 :: outer') outer' :=
  .quiet (by simp only [List.length_cons]; omega) (fun _ => endScope_of_frames)
    fun _ => endScope_of_frames

/-- What is read to the end of a scope, with the scope closed behind it. -/
theorem closing {kind : Container} {key key' : Nat}
    (h : Carries tail step step' fs (.opened kind key 0 :: outer) fs'
      (.opened kind key' 0 :: outer')) :
    Carries tail (do let x ← step; Cursor.endScope kind key; return x)
      (do let x ← step'; Cursor.endScope kind key'; return x) fs outer fs' outer' :=
  h.bind fun a => (endScope kind key key').bind fun _ => .pure a

theorem exists_places {kind : Container} {header : Bytes} {n : Nat}
    (h : kind.Opening header n) : ∃ m, n = places kind m := by
  cases kind with
  | array => exact ⟨n, rfl⟩
  | map =>
      obtain ⟨m, -, hm⟩ := h
      exact ⟨m, hm⟩

/-- A container, whose scope may have another number on the other side. -/
theorem scope (kind : Container) {f f' : Nat → Step α} (hfs : Readable fs) (hfs' : Readable fs')
    (h : ∀ key key' n, Carries tail (f key) (f' key')
      (.opened kind key (places kind n) :: fs.modifyHead Frame.stepped) gs
      (.opened kind key' (places kind n) :: fs'.modifyHead Frame.stepped) gs') :
    Carries tail (beginScope kind >>= f) (beginScope kind >>= f') fs gs fs' gs' := by
  rintro c d t a rfl rfl hhosts hrun
  obtain ⟨key, c₁, hbegin, hrest⟩ := bind_eq_ok_iff.mp hrun
  obtain ⟨-, hroom, rfl, header, _, rest, hopening, hl, rfl⟩ := beginScope_inv hbegin
  obtain ⟨n, rfl⟩ := exists_places hopening
  have hl' : d.source.left = header ++ (rest ++ tail) := by
    rw [hhosts.left, hl, List.append_assoc]
  have hlevels := hhosts.levels
  have hbegin' := beginScope_of_room hopening hfs' hl' (by omega)
  have hn : header.length ≤ c.source.left.length := by simp [hl]
  have hdeeper : (.opened kind (d.lastId + 1) (places kind n) ::
      d.frames.modifyHead Frame.stepped : List Frame).length + c.frames.length ≤
      (.opened kind (c.lastId + 1) (places kind n) ::
        c.frames.modifyHead Frame.stepped : List Frame).length + d.frames.length := by
    simp only [List.length_cons, length_modifyHead]
    omega
  obtain ⟨k, id, id', hk, rfl, hrest', hdepth⟩ := h (c.lastId + 1) (d.lastId + 1) n _ _ _ _ rfl rfl
    (hhosts.moved hn hdeeper _ _) hrest
  have hk : k ≤ (c.source.left.drop header.length).length := hk
  rw [List.length_drop] at hk
  simp only [List.length_cons, length_modifyHead] at hdepth
  refine ⟨header.length + k, id, id', by omega, ?_, ?_, by omega⟩
  · rw [moved_moved]
  · rw [bind_of_ok hbegin', hrest', moved_moved]

/-- A step that is repeated takes the open scopes from one stage to the next. -/
theorem collect (stage stage' : Nat → List Frame)
    (h : ∀ n, Carries tail step step' (stage (n + 1)) (stage n) (stage' (n + 1)) (stage' n))
    (n : Nat) :
    Carries tail (collect step n) (MsgPack.collect step' n) (stage n) (stage 0) (stage' n)
      (stage' 0) := by
  induction n with
  | zero => exact .pure []
  | succ n ih =>
      rw [collect_succ, collect_succ]
      exact (h n).bind fun a => ih.map (a :: ·)

end Carries

namespace Portable

variable {step step' : Step α}

theorem leaf {g : Get α} (h : g.Extends tail) : Portable tail (leaf g) (leaf g) := by
  rintro _ _ - hfs' c d t a rfl rfl hhosts hrun
  obtain ⟨-, u, hg, rfl⟩ := leaf_inv hrun
  obtain ⟨n, hn, rfl, hg'⟩ := h c.source d.source _ _ hhosts.kind hhosts.left hg
  refine ⟨n, c.lastId, d.lastId, hn, rfl, leaf_of_ok hfs' hg', ?_⟩
  rw [length_modifyHead, length_modifyHead, Nat.add_comm]

/-- Numbers are read by the policy that both cursors have. -/
theorem byPolicy {f : DecodePolicy → Step α}
    (h : ∀ policy, Portable tail (f policy) (f policy))
    (hstep : ∀ c : Cursor, step c = f c.policy c) : Portable tail step step := by
  intro fs fs' hfs hfs' c d t a hc hd hhosts hrun
  rw [hstep] at hrun ⊢
  rw [hhosts.policy]
  exact h c.policy fs fs' hfs hfs' c d t a hc hd hhosts hrun

theorem map (h : Portable tail step step') (f : α → β) :
    Portable tail (do return f (← step)) (do return f (← step')) :=
  fun fs fs' hfs hfs' => (h fs fs' hfs hfs').map f

/-- A second look at what was read. -/
theorem checked {check : α → Except Error β} (h : Portable tail step step') :
    Portable tail (do Get.ofExcept (check (← step))) (do Get.ofExcept (check (← step'))) :=
  fun fs fs' hfs hfs' => (h fs fs' hfs hfs').bind fun a => .ofExcept (check a)

theorem inArray (h : Portable tail step step') (key key' n : Nat) :
    Carries tail step step' (.opened .array key (n + 1) :: outer) (.opened .array key n :: outer)
      (.opened .array key' (n + 1) :: outer') (.opened .array key' n :: outer') :=
  h _ _ (readable_array key n outer) (readable_array key' n outer')

theorem asKey (h : Portable tail step step') (key key' n : Nat) :
    Carries tail step step' (announced key n :: outer) (.opened .map key (2 * n + 1) :: outer)
      (announced key' n :: outer') (.opened .map key' (2 * n + 1) :: outer') := by
  have hcarries := h _ _ (readable_announced key n outer) (readable_announced key' n outer')
  rwa [List.modifyHead_cons, List.modifyHead_cons, stepped_announced, stepped_announced]
    at hcarries

theorem asValue (h : Portable tail step step') (key key' n : Nat) :
    Carries tail step step'
      (.opened .map key (2 * n + 1) :: outer) (.opened .map key (2 * n) :: outer)
      (.opened .map key' (2 * n + 1) :: outer') (.opened .map key' (2 * n) :: outer') := by
  have hcarries := h _ _ (readable_odd key n outer) (readable_odd key' n outer')
  rwa [List.modifyHead_cons, List.modifyHead_cons, stepped_odd, stepped_odd] at hcarries

/-- What comes next may be looked at first. -/
theorem typeNext {f f' : EntityType → Step α} (h : ∀ e, Portable tail (f e) (f' e)) :
    Portable tail (typeNext >>= f) (typeNext >>= f') :=
  fun fs fs' hfs hfs' => Carries.typeNext.bind fun e => h e fs fs' hfs hfs'

theorem throw (e : Error) : Portable tail (throw e) step' := fun _ _ _ _ => .throw e

theorem tooDeep : Portable tail tooDeep step' :=
  fun _ _ _ _ => .of_fails fun _ _ _ => nofun

theorem text (storage : Storage) : Portable tail (text storage) (Cursor.text storage) :=
  leaf (LeafReader.text nofun).extends

theorem binary (storage : Storage) : Portable tail (binary storage) (Cursor.binary storage) :=
  leaf (LeafReader.binary nofun).extends

theorem extension (storage : Storage) :
    Portable tail (extension storage) (Cursor.extension storage) :=
  leaf (LeafReader.extension nofun).extends

/-! ### Containers and values -/

theorem elements (h : Portable tail step step') :
    Portable tail (elements step) (Cursor.elements step') := fun fs fs' hfs hfs' =>
  .scope .array hfs hfs' fun key key' n => .elemLeft <| .closing <|
    .collect (.opened .array key · :: fs.modifyHead Frame.stepped)
      (.opened .array key' · :: fs'.modifyHead Frame.stepped) (h.inArray key key') n

/-- An entry of a map: its key, announced, and its value. -/
theorem asEntry {val val' : Step β} (h : Portable tail step step')
    (hval : Portable tail val val') (key key' n : Nat) :
    Carries tail (do announceKey; return (← step, ← val))
      (do announceKey; return (← step', ← val'))
      (.opened .map key (2 * (n + 1)) :: outer) (.opened .map key (2 * n) :: outer)
      (.opened .map key' (2 * (n + 1)) :: outer') (.opened .map key' (2 * n) :: outer') :=
  (Carries.announceKey key key' n).bind fun _ => (h.asKey key key' n).bind fun a =>
    (hval.asValue key key' n).map (a, ·)

theorem entries {val val' : Step β} (h : Portable tail step step')
    (hval : Portable tail val val') :
    Portable tail (entries step val) (Cursor.entries step' val') := by
  refine fun fs fs' hfs hfs' => .scope .map hfs hfs' fun key key' n => .elemLeft ?_
  rw [places, Nat.mul_div_cancel_left n Nat.two_pos]
  exact .closing <| .collect (fun n => .opened .map key (2 * n) :: fs.modifyHead Frame.stepped)
    (fun n => .opened .map key' (2 * n) :: fs'.modifyHead Frame.stepped)
    (h.asEntry hval key key') n

theorem valueWith {storage : Storage} {inside inside' : Step OwnedValue}
    (h : Portable tail inside inside') :
    Portable tail (valueWith storage inside) (Cursor.valueWith storage inside') := by
  refine typeNext fun e => ?_
  cases e with
  | null => exact (leaf LeafReader.nil.extends).map fun _ => Value.nil
  | boolean => exact (leaf LeafReader.bool.extends).map Value.bool
  | integer => exact (leaf LeafReader.number.extends).map Value.number
  | floatingPoint => exact (leaf LeafReader.number.extends).map Value.number
  | string => exact (text storage).map Value.string
  | binary => exact (binary storage).map Value.binary
  | extension => exact (extension storage).map fun e => Value.extension e.type e.data
  | array => exact (elements h).map Value.array
  | map => exact (entries h h).map Value.map

theorem valueWithin {storage : Storage} {m n : Nat} (hle : m ≤ n) :
    Portable tail (valueWithin storage m) (Cursor.valueWithin storage n) := by
  induction m generalizing n with
  | zero => cases n <;> exact valueWith tooDeep
  | succ m ih =>
      obtain ⟨n, rfl⟩ := Nat.exists_eq_add_one_of_ne_zero (Nat.ne_zero_of_lt hle)
      exact valueWith (ih (Nat.le_of_succ_le_succ hle))

theorem value (storage : Storage) : Portable tail (value storage) (Cursor.value storage) :=
  fun fs fs' hfs hfs' => .levels fun _ _ hle => valueWithin hle fs fs' hfs hfs'

end Portable

end Cursor

end MsgPack
