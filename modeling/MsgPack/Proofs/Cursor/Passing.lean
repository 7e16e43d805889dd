import MsgPack.Proofs.Cursor.Reads
import MsgPack.Proofs.Wire.Leaves

/-!
Passing over nodes. What is skipped is a node with everything inside it, and a
scope that is closed early passes over what is left of it, unless the nesting is
deeper than the cursor allows. Nothing else can go wrong in a document.
-/

namespace MsgPack

open Node (bytesAll WellFormedAll)

namespace Frame

/-- The scope with one element less to come and no key announced. -/
def passed (f : Frame) : Frame := { f with keyPending := false, remaining := f.remaining - 1 }

/-- Whether the announcement is of the key that comes next. -/
def Settled (f : Frame) : Prop := f.keyPending = true → f.atKey = true

theorem settled_passed (f : Frame) : f.passed.Settled := fun h => Bool.noConfusion h

theorem settled_opened (kind : Container) (key n : Nat) : (opened kind key n).Settled :=
  fun h => Bool.noConfusion h

/-- An announcement does not outlast the element that is read next. -/
theorem stepped_of_settled {f : Frame} (h : f.Settled) : f.stepped = f.passed := by
  have hpending : (!f.atKey && f.keyPending) = false := by
    cases hkey : f.keyPending with
    | false => exact Bool.and_false _
    | true => rw [h hkey]; rfl
  rw [stepped, passed, hpending]

end Frame

namespace Cursor

variable {c : Cursor} {f : Frame} {outer : List Frame} {rest : Bytes}

/-- The innermost scope, if there is one, is settled. -/
def SettledIn : List Frame → Prop
  | [] => True
  | f :: _ => f.Settled

theorem settledIn_of_forall {fs : List Frame} (h : ∀ f ∈ fs, f.Settled) : SettledIn fs := by
  cases fs with
  | nil => trivial
  | cons f fs => exact h f (List.mem_cons_self ..)

theorem modifyHead_stepped {fs : List Frame} (h : SettledIn fs) :
    fs.modifyHead Frame.stepped = fs.modifyHead Frame.passed := by
  cases fs with
  | nil => rfl
  | cons f fs => exact congrArg (· :: fs) (Frame.stepped_of_settled h)

theorem stepOverSkipped_apply (c : Cursor) :
    stepOverSkipped c = .ok () { c with frames := c.frames.modifyHead Frame.passed } := by
  obtain ⟨policy, maxDepth, strict, source, frames, lastId⟩ := c
  cases frames <;> rfl

/-- A step completes as told, unless the nesting is too deep for it. -/
def Completes (result : EStateM.Result Error Cursor Unit) (excess : Prop)
    (p : Cursor → Prop) : Prop :=
  match result with
  | .ok _ c => p c
  | .error e _ => e.kind = .recursionLimit ∧ excess

theorem Completes.mono {result : EStateM.Result Error Cursor Unit} {x y : Prop}
    {p q : Cursor → Prop} (h : Completes result x p) (hxy : x → y) (hpq : ∀ c, p c → q c) :
    Completes result y q := by
  cases result with
  | ok _ c => exact hpq c h
  | error e c => exact ⟨h.1, hxy h.2⟩

theorem Completes.bind {step next : Step Unit} {x : Prop} {p q : Cursor → Prop}
    (h : Completes (step c) x p) (hnext : ∀ c', p c' → Completes (next c') x q) :
    Completes ((do step; next) c) x q := by
  rw [bind_apply]
  cases hstep : step c with
  | ok a c' =>
      rw [hstep] at h
      exact hnext c' h
  | error e c' =>
      rw [hstep] at h
      exact h

theorem Completes.of_ok {result : EStateM.Result Error Cursor Unit} {x : Prop}
    {p : Cursor → Prop} {c : Cursor} (h : Completes result x p) (hresult : result = .ok () c) :
    p c := by
  rw [hresult] at h
  exact h

theorem Completes.of_room {result : EStateM.Result Error Cursor Unit} {x : Prop}
    {p : Cursor → Prop} (h : Completes result x p) (hx : ¬x) : ∃ c, result = .ok () c ∧ p c := by
  cases result with
  | ok _ c => exact ⟨c, rfl, h⟩
  | error e c => exact absurd h.2 hx

/-- The bytes are behind the cursor, and the scopes `fs` are open. -/
structure Past (c : Cursor) (bs : Bytes) (fs : List Frame) (c' : Cursor) : Prop where
  source : c'.source = c.source.advance bs.length
  frames : c'.frames = fs
  maxDepth : c'.maxDepth = c.maxDepth
  strict : c'.strict = c.strict
  policy : c'.policy = c.policy

theorem Past.trans {c' c'' : Cursor} {bs bs' : Bytes} {fs fs' : List Frame}
    (h : c.Past bs fs c') (h' : c'.Past bs' fs' c'') : c.Past (bs ++ bs') fs' c'' where
  source := by rw [h'.source, h.source, Source.advance_advance, List.length_append]
  frames := h'.frames
  maxDepth := h'.maxDepth.trans h.maxDepth
  strict := h'.strict.trans h.strict
  policy := h'.policy.trans h.policy

theorem Past.left {c' : Cursor} {bs : Bytes} {fs : List Frame} (h : c.Past bs fs c')
    (hl : c.source.left = bs ++ rest) : c'.source.left = rest := by
  rw [h.source]
  exact Source.left_advance_length hl

theorem Past.eq_moved {c' : Cursor} {bs : Bytes} {fs : List Frame} (h : c.Past bs fs c') :
    c' = c.moved bs.length fs c'.lastId := by
  obtain ⟨policy, maxDepth, strict, source, frames, lastId⟩ := c'
  obtain ⟨rfl, rfl, rfl, rfl, rfl⟩ := h
  rfl

/-- The step passes over the next node, wherever one may be read. Its levels are
all that the cursor has, or more. -/
def Passes (levels : Nat) (one : Step Unit) : Prop :=
  ∀ (n : Node) (c : Cursor) (rest : Bytes), n.WellFormed → Readable c.frames →
    SettledIn c.frames → c.source.left = n.bytes ++ rest →
    c.maxDepth ≤ c.frames.length + levels →
    Completes (one c) (c.maxDepth < c.frames.length + n.height)
      (c.Past n.bytes (c.frames.modifyHead Frame.passed))

/-- A container is opened, if there can be one more. -/
theorem beginScope_completes {kind : Container} {header : Bytes} {n : Nat}
    (h : kind.Opening header n) (hreadable : Readable c.frames) (hsettled : SettledIn c.frames)
    (hl : c.source.left = header ++ rest) :
    Completes (discard (beginScope kind) c) (c.maxDepth ≤ c.frames.length) fun c' =>
      c.frames.length < c.maxDepth ∧
        ∃ key, c.Past header (.opened kind key n :: c.frames.modifyHead Frame.passed) c' := by
  rw [discard_apply, bind_apply, beginScope_of_opening h hreadable hl, modifyHead_stepped hsettled]
  by_cases hroom : c.maxDepth ≤ c.frames.length
  · have hdeep : c.maxDepth ≤ (c.frames.modifyHead Frame.passed).length := by
      rwa [length_modifyHead]
    rw [pushFrame, bind_apply, get_apply]
    dsimp only
    rw [if_pos hdeep]
    exact ⟨rfl, hroom⟩
  · have hlen : (c.frames.modifyHead Frame.passed).length < c.maxDepth := by
      rw [length_modifyHead]
      omega
    rw [pushFrame_of_room kind n hlen]
    exact ⟨Nat.lt_of_not_le hroom, _, rfl, rfl, rfl, rfl, rfl⟩

/-- In a drained scope keys are announced by themselves. -/
theorem announceSkipped_of_frames (h : c.frames = f :: outer) (hremaining : f.remaining ≠ 0)
    (hsettled : f.Settled) :
    ∃ g, announceSkipped c = .ok () { c with frames := g :: outer } ∧ Readable (g :: outer) ∧
      g.Settled ∧ g.passed = f.passed := by
  refine ⟨_, modifyInnermost_of_frames _ h, ⟨hremaining, fun hkey => ?_⟩, fun hpending => ?_,
    rfl⟩
  · have hkey' : f.atKey = true := hkey
    simp [hkey']
  · have hor : f.atKey = true ∨ f.keyPending = true := by simpa using hpending
    exact hor.elim id hsettled

/-- What is left of a scope is passed over node by node. -/
theorem times_completes {one : Step Unit} {levels : Nat} (hone : Passes levels one)
    {items : List Node} (hitems : WellFormedAll items) (hframes : c.frames = f :: outer)
    (hremaining : f.remaining = items.length) (hsettled : f.Settled)
    (hl : c.source.left = bytesAll items ++ rest)
    (hlevels : c.maxDepth ≤ c.frames.length + levels) :
    Completes (times (do announceSkipped; one) items.length c)
      (c.maxDepth < c.frames.length + Node.heightAll items) fun c' =>
        ∃ g, c.Past (bytesAll items) (g :: outer) c' := by
  induction items generalizing c f with
  | nil => exact ⟨f, rfl, hframes, rfl, rfl, rfl⟩
  | cons n items ih =>
      obtain ⟨g, hannounce, hreadable, hg, hpassed⟩ :=
        announceSkipped_of_frames hframes (by rw [hremaining]; exact Nat.succ_ne_zero _) hsettled
      have hleft : c.source.left = n.bytes ++ (bytesAll items ++ rest) := by
        rw [hl, bytesAll, List.append_assoc]
      have hheight : n.height ≤ Node.heightAll (n :: items) ∧
          Node.heightAll items ≤ Node.heightAll (n :: items) :=
        ⟨Nat.le_max_left .., Nat.le_max_right ..⟩
      have hlen : c.frames.length = (g :: outer).length := by rw [hframes]; rfl
      have hstep : Completes ((do announceSkipped; one) c)
          (c.maxDepth < c.frames.length + Node.heightAll (n :: items))
          (c.Past n.bytes (f.passed :: outer)) := by
        rw [bind_of_ok hannounce, ← hpassed]
        refine (hone n { c with frames := g :: outer } _ hitems.1 hreadable hg hleft
          (hlen ▸ hlevels)).mono (fun hexcess => ?_) fun c' h =>
            ⟨h.source, h.frames, h.maxDepth, h.strict, h.policy⟩
        dsimp only at hexcess
        omega
      refine hstep.bind fun c' hc' => ?_
      have hlen' : c'.frames.length = c.frames.length := by rw [hc'.frames, hframes]; rfl
      have hrest := ih hitems.2 hc'.frames (by rw [Frame.passed, hremaining]; rfl)
        f.settled_passed (hc'.left hleft) (by rwa [hlen', hc'.maxDepth])
      refine hrest.mono (fun hexcess => ?_) fun c'' hc'' => ?_
      · rw [hlen', hc'.maxDepth] at hexcess
        omega
      · obtain ⟨g', hg'⟩ := hc''
        exact ⟨g', hc'.trans hg'⟩

/-- Closing a scope passes over what is left of it. -/
theorem drainWith_completes {one : Step Unit} {levels : Nat} (hone : Passes levels one)
    {items : List Node} (hitems : WellFormedAll items) (hframes : c.frames = f :: outer)
    (hremaining : f.remaining = items.length) (hsettled : f.Settled)
    (hl : c.source.left = bytesAll items ++ rest)
    (hlevels : c.maxDepth ≤ c.frames.length + levels) :
    Completes (drainWith one c) (c.maxDepth < c.frames.length + Node.heightAll items)
      (c.Past (bytesAll items) outer) := by
  rw [drainWith, bind_of_ok (innermost_of_frames hframes), hremaining]
  refine (times_completes hone hitems hframes hremaining hsettled hl hlevels).bind fun c' hc' => ?_
  obtain ⟨g, hg⟩ := hc'
  exact ⟨hg.source, by dsimp only; rw [hg.frames]; rfl, hg.maxDepth, hg.strict, hg.policy⟩

/-- What does not begin as a container is passed over in one piece. -/
theorem skipWith_of_leaf {one : Step Unit} {m : Marker} {e : EntityType}
    (hm : Get.marker c.source = .ok m c.source) (he : m.code.entity? = some e)
    (hne : ∀ kind : Container, e ≠ kind.entity) :
    skipWith one c = (do fromSource Get.skipLeaf; stepOverSkipped) c := by
  rw [skipWith, bind_of_ok (fromSource_of_ok hm), he]
  have harray := hne .array
  have hmap := hne .map
  cases e <;> first | rfl | contradiction

theorem skipWith_of_container {one : Step Unit} {m : Marker} {kind : Container}
    (hm : Get.marker c.source = .ok m c.source) (he : m.code.entity? = some kind.entity) :
    skipWith one c = (do discard (beginScope kind); drainWith one) c := by
  rw [skipWith, bind_of_ok (fromSource_of_ok hm), he]
  cases kind <;> rfl

theorem skipWith_leaf {one : Step Unit} {bs : Bytes} (h : Leaf bs)
    (hl : c.source.left = bs ++ rest) :
    skipWith one c = .ok () { c with
      source := c.source.advance bs.length
      frames := c.frames.modifyHead Frame.passed } := by
  obtain ⟨e, ⟨b, tail, rfl, he⟩, hne⟩ := Leaf.begins h
  rw [skipWith_of_leaf (Get.marker_cons hl) he hne,
    bind_of_ok (fromSource_of_ok (Get.skipLeaf_of_leaf h hl)), stepOverSkipped_apply]

/-- Passing over a node, given how to pass over those inside a container. -/
theorem passes_skipWith {one : Step Unit} {levels : Nat}
    (hone : ∀ inside, levels = inside + 1 → Passes inside one) :
    Passes levels (skipWith one) := by
  intro n c rest hn hreadable hsettled hl hlevels
  cases n with
  | leaf bs =>
      rw [skipWith_leaf hn hl]
      exact ⟨rfl, rfl, rfl, rfl, rfl⟩
  | container kind header items =>
      obtain ⟨hopening, hitems⟩ := hn
      have hleft : c.source.left = header ++ (bytesAll items ++ rest) := by
        rw [hl, Node.bytes, List.append_assoc]
      have hskip : skipWith one c = (do discard (beginScope kind); drainWith one) c := by
        obtain ⟨b, tail, rfl, he⟩ := hopening.begins
        exact skipWith_of_container (Get.marker_cons hleft) he
      rw [hskip]
      have hbegin := (beginScope_completes hopening hreadable hsettled hleft).mono
        (y := c.maxDepth < c.frames.length + (Node.container kind header items).height)
        (fun hexcess => by rw [Node.height]; omega) fun _ => id
      refine hbegin.bind fun c' hc' => ?_
      obtain ⟨hroom, key, hkey⟩ := hc'
      obtain ⟨inside, rfl⟩ : ∃ inside, levels = inside + 1 :=
        Nat.exists_eq_succ_of_ne_zero (by omega)
      have hlen : c'.frames.length = c.frames.length + 1 := by
        rw [hkey.frames, List.length_cons, length_modifyHead]
      have hdrain := drainWith_completes (hone inside rfl) hitems hkey.frames rfl
        (fun h => Bool.noConfusion h) (hkey.left hleft) (by rw [hlen, hkey.maxDepth]; omega)
      refine hdrain.mono (fun hexcess => ?_) fun c'' hc'' => hkey.trans hc''
      rw [hlen, hkey.maxDepth] at hexcess
      rw [Node.height]
      omega

theorem passes_skipWithin (levels : Nat) : Passes levels (skipWithin levels) := by
  induction levels with
  | zero => exact passes_skipWith fun inside h => absurd h.symm (Nat.succ_ne_zero inside)
  | succ levels ih =>
      refine passes_skipWith fun inside h => ?_
      obtain rfl := Nat.succ.inj h
      exact ih

theorem skip_of_readable {c : Cursor} (hreadable : Readable c.frames) :
    skip c = skipWithin (c.maxDepth - c.frames.length) c :=
  bind_of_ok (checkReadable_of_readable hreadable)

theorem closeInnermost_of_lax (hframes : c.frames = f :: outer) :
    closeInnermost false c = drainWith (skipWithin (c.maxDepth - c.frames.length)) c := by
  rw [closeInnermost, bind_of_ok (innermost_of_frames hframes)]
  rfl

/-- The innermost scope closes, whatever is left of it. -/
theorem endScope_completes {items : List Node} (hitems : WellFormedAll items)
    (hframes : c.frames = f :: outer) (hremaining : f.remaining = items.length)
    (hsettled : f.Settled) (hstrict : c.strict = false)
    (hl : c.source.left = bytesAll items ++ rest) :
    Completes (endScope f.kind f.id c) (c.maxDepth < c.frames.length + Node.heightAll items)
      (c.Past (bytesAll items) outer) := by
  have hupTo : scopesUpTo f.kind f.id c = .ok 1 c := by
    simp [scopesUpTo, bind_apply, hframes, List.findIdx?_cons]
  have honce : endScope f.kind f.id c = (do closeInnermost c.strict; pure ()) c := by
    rw [endScope, bind_of_ok hupTo, bind_apply, get_apply]
    rfl
  rw [honce, bind_pure_unit, hstrict, closeInnermost_of_lax hframes]
  exact drainWith_completes (passes_skipWithin _) hitems hframes hremaining hsettled hl
    (by omega)

end Cursor

end MsgPack
