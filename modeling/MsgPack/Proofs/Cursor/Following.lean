import MsgPack.Proofs.Cursor.Passing
import MsgPack.Proofs.Schema.Leaves

/-!
A cursor follows its document. Calls are told twice: as steps of a cursor, and
as moves between the spots of a document. As long as calls fail only because
they are out of order or of another kind than what comes next, the cursor is
where the moves lead, with the scopes that are open around that spot.
-/

namespace MsgPack.Cursor

open Node (bytesAll WellFormedAll)

/-! ### Calls -/

inductive Call where
  | enter (kind : Container)
  /-- Closes the innermost scope, by its number. -/
  | leave (kind : Container)
  | key
  | skip
  | read (s : Schema) (h : s.isLeaf = true)

def Call.step : Call → Step Unit
  | enter kind => discard (beginScope kind)
  | leave kind => do
    let f ← innermost
    endScope kind f.id
  | key => announceKey
  | skip => Cursor.skip
  | read s _ => discard (s.restore s.fresh)

/-- Makes a call and goes on from where it ends, with or without success. -/
def attempt (call : Call) (c : Cursor) : Option Error × Cursor :=
  match call.step c with
  | .ok _ c => (none, c)
  | .error e c => (some e, c)

/-- The calls with what comes of each, and the cursor after the last. -/
def attempts : List Call → Cursor → List (Call × Option Error) × Cursor
  | [], c => ([], c)
  | call :: calls, c =>
    let (outcome, c) := attempt call c
    let (outcomes, c) := attempts calls c
    ((call, outcome) :: outcomes, c)

/-! ### Moves -/

/-- A spot in a document, and whether the key that comes next has been
announced there. -/
structure Place where
  spot : Spot
  announced : Bool := false

namespace Place

/-- Whether the next node may be consumed: there is one in the container, and a
key has been announced. -/
def MayConsume (p : Place) : Prop := p.spot.GoesOn ∧ (p.spot.AtKey → p.announced = true)

/-- Whether a call is in order. -/
def Admits (p : Place) : Call → Prop
  | .enter _ | .skip | .read .. => p.MayConsume
  | .leave kind => ∃ outer header passed todo, p.spot = .inside outer kind header passed todo
  | .key => p.spot.AtKey ∧ p.announced = false

end Place

/-- Where a call leads that succeeds. -/
inductive Leads : Place → Call → Place → Prop
  | enter (outer : Spot) (announced : Bool) (kind : Container) (header : Bytes)
      (items : List Node) :
      Leads ⟨outer.ahead (.container kind header items), announced⟩ (.enter kind)
        ⟨.inside outer kind header [] items, false⟩
  | leave (outer : Spot) (announced : Bool) (kind : Container) (header : Bytes)
      (passed todo : List Node) :
      Leads ⟨.inside outer kind header passed todo, announced⟩ (.leave kind)
        ⟨outer.behind (.container kind header (passed ++ todo)), false⟩
  | key (spot : Spot) : Leads ⟨spot, false⟩ .key ⟨spot, true⟩
  | skip (spot : Spot) (announced : Bool) (n : Node) :
      Leads ⟨spot.ahead n, announced⟩ .skip ⟨spot.behind n, false⟩
  | read (spot : Spot) (announced : Bool) (bs : Bytes) (s : Schema) (h : s.isLeaf = true) :
      Leads ⟨spot.ahead (.leaf bs), announced⟩ (.read s h) ⟨spot.behind (.leaf bs), false⟩

/-- What comes of a call, and where it leads: on, if it was in order; nowhere,
if it was refused. Only the size of a timestamp is found to be of another format
when it has been consumed. -/
inductive Comes (p : Place) : Call → Option Error → Place → Prop
  | done {call : Call} {q : Place} (hin : p.Admits call) (hq : Leads p call q) :
      Comes p call none q
  | misused {call : Call} (misuse : ReaderMisuse) (hout : ¬ p.Admits call) :
      Comes p call (some (.readerContext misuse)) p
  | refused {call : Call} (cause : Mismatch) (hin : p.Admits call) :
      Comes p call (some (.unexpectedFormat cause)) p
  | rejected {s : Schema} {h : s.isLeaf = true} {q : Place} (cause : Mismatch)
      (hstamp : s.isTimestamp = true) (hin : p.Admits (.read s h)) (hq : Leads p (.read s h) q) :
      Comes p (.read s h) (some (.unexpectedFormat cause)) q

/-- A way through a document, call by call. -/
inductive Journey : Place → List (Call × Option Error) → Place → Prop
  | stay (p : Place) : Journey p [] p
  | go {p q r : Place} {call : Call} {outcome : Option Error}
      {rest : List (Call × Option Error)} (hcomes : Comes p call outcome q)
      (hrest : Journey q rest r) : Journey p ((call, outcome) :: rest) r

/-! ### Scopes at a place -/

/-- The scopes are those of the containers around a spot. Each has as many
elements to come as its container has nodes after the spot. -/
inductive Tracks : List Frame → Spot → Bool → Prop
  | root (passed todo : List Node) : Tracks [] (.root passed todo) false
  | inside {fs : List Frame} {outer : Spot} {f : Frame} {header : Bytes}
      {passed todo : List Node} (houter : Tracks fs outer false)
      (hremaining : f.remaining = todo.length) :
      Tracks (f :: fs) (.inside outer f.kind header passed todo) f.keyPending

/-- The cursor is at a place of its document. -/
structure StandsAt (c : Cursor) (p : Place) : Prop where
  position : c.source.position = p.spot.before.length
  left : c.source.left = p.spot.after
  scopes : Tracks c.frames p.spot p.announced
  announced : p.announced = true → p.spot.AtKey
  lax : c.strict = false

variable {c : Cursor} {p : Place} {fs : List Frame} {spot : Spot} {announced : Bool} {n : Node}

theorem depth_of_tracks (h : Tracks fs spot announced) : fs.length = spot.depth := by
  induction h with
  | root => rfl
  | inside houter hremaining ih => exact congrArg (· + 1) ih

/-- In a well-formed document keys are where the scopes expect them. -/
theorem atKey_iff {outer : Spot} {header : Bytes} {passed todo : List Node} {f : Frame}
    (hdoc : WellFormedAll (Spot.inside outer f.kind header passed todo).doc)
    (hremaining : f.remaining = todo.length) :
    f.atKey = true ↔ (Spot.inside outer f.kind header passed todo).AtKey := by
  cases hkind : f.kind with
  | array => simp [Frame.atKey, Spot.AtKey, hkind]
  | map =>
      rw [hkind] at hdoc
      simp [Frame.atKey, Spot.AtKey, hkind, hremaining, Spot.even_todo_iff hdoc]

theorem readable_iff (h : Tracks fs spot announced) (hdoc : WellFormedAll spot.doc) :
    Readable fs ↔ (Place.mk spot announced).MayConsume := by
  cases h with
  | root => exact ⟨fun _ => ⟨trivial, fun h => h.elim⟩, fun _ => trivial⟩
  | inside houter hremaining =>
      rw [Readable, Place.MayConsume, atKey_iff hdoc hremaining, hremaining]
      simp [Spot.GoesOn]

theorem settledIn_of_tracks (h : Tracks fs spot announced) (hdoc : WellFormedAll spot.doc)
    (hannounced : announced = true → spot.AtKey) : SettledIn fs := by
  cases h with
  | root => trivial
  | inside houter hremaining =>
      exact fun hpending => (atKey_iff hdoc hremaining).mpr (hannounced hpending)

/-- The scope of a node that has been consumed. -/
theorem tracks_consumed (h : Tracks fs (spot.ahead n) announced) :
    Tracks (fs.modifyHead Frame.passed) spot false := by
  cases spot with
  | root passed todo =>
      cases h
      exact .root passed todo
  | inside outer kind header passed todo =>
      cases h with
      | @inside fs _ f _ _ _ houter hremaining =>
          have hleft : f.passed.remaining = todo.length := by
            rw [Frame.passed, hremaining]
            rfl
          exact Tracks.inside (f := f.passed) houter hleft

theorem tracks_behind (h : Tracks fs spot false) (n : Node) :
    Tracks fs (spot.behind n) false := by
  cases spot with
  | root passed todo =>
      cases h
      exact .root _ todo
  | inside outer kind header passed todo =>
      generalize hpending : false = pending at h
      cases h with
      | inside houter hremaining => exact .inside houter hremaining

/-! ### What comes of a call -/

/-- What a call has come to keeps the cursor at a place of the document, if it
did not fail for another reason. -/
def Lands (p : Place) (call : Call) : EStateM.Result Error Cursor Unit → Prop
  | .ok _ c => ∃ q, Comes p call none q ∧ q.spot.doc = p.spot.doc ∧ c.StandsAt q
  | .error e c => e.kind = .unexpectedFormat ∨ e.kind = .readerContext →
    ∃ q, Comes p call (some e) q ∧ q.spot.doc = p.spot.doc ∧ c.StandsAt q

section Lands

variable {call : Call} {q : Place} {c' : Cursor} {e : Error}

theorem lands_done (hin : p.Admits call) (hq : Leads p call q) (hdoc : q.spot.doc = p.spot.doc)
    (hc' : c'.StandsAt q) : Lands p call (.ok () c') :=
  ⟨q, .done hin hq, hdoc, hc'⟩

theorem lands_misused (hc : c.StandsAt p) (hout : ¬ p.Admits call) (misuse : ReaderMisuse) :
    Lands p call (.error (.readerContext misuse) c) :=
  fun _ => ⟨p, .misused misuse hout, rfl, hc⟩

theorem lands_hard (he : e.kind ≠ .unexpectedFormat ∧ e.kind ≠ .readerContext) :
    Lands p call (.error e c') :=
  fun h => absurd h (not_or.mpr he)

theorem exists_mismatch (he : e.kind = .unexpectedFormat) :
    ∃ cause, e = .unexpectedFormat cause := by
  cases e with
  | unexpectedFormat cause => exact ⟨cause, rfl⟩
  | _ => cases he

/-- A mild complaint leaves the cursor where it is. -/
theorem lands_mild (hc : c.StandsAt p) (hin : p.Admits call) {t : Source}
    (he : e.kind = .unexpectedFormat ∧ t = c.source ∨
      e.kind ≠ .unexpectedFormat ∧ e.kind ≠ .readerContext) :
    Lands p call (.error e { c with source := t }) := by
  obtain ⟨he, rfl⟩ | he := he
  · obtain ⟨cause, rfl⟩ := exists_mismatch he
    exact fun _ => ⟨p, .refused cause hin, rfl, hc⟩
  · exact lands_hard he

theorem Completes.lands {result : EStateM.Result Error Cursor Unit} {x : Prop}
    {r : Cursor → Prop} (h : Completes result x r) (hr : ∀ c', r c' → Lands p call (.ok () c')) :
    Lands p call result := by
  cases result with
  | ok a c' => exact hr c' h
  | error e c' =>
      have he : e.kind = .recursionLimit := h.1
      exact lands_hard (by rw [he]; decide)

end Lands

theorem checkReadable_of_not_readable (h : ¬ Readable c.frames) :
    ∃ misuse, checkReadable c = .error (.readerContext misuse) c := by
  rw [checkReadable, bind_apply, get_apply]
  dsimp only
  cases hframes : c.frames with
  | nil =>
      rw [hframes] at h
      exact absurd trivial h
  | cons f outer =>
      rw [hframes] at h
      dsimp only
      by_cases hremaining : f.remaining = 0
      · rw [if_pos hremaining]
        exact ⟨_, rfl⟩
      · rw [if_neg hremaining]
        by_cases hkey : (f.atKey && !f.keyPending) = true
        · rw [if_pos hkey]
          exact ⟨_, rfl⟩
        · refine absurd ⟨hremaining, fun hat => ?_⟩ h
          rw [hat] at hkey
          simpa using hkey

/-- What consumes a node looks first whether it may. -/
theorem lands_consuming {call : Call} (hc : c.StandsAt p) (hdoc : WellFormedAll p.spot.doc)
    (hadmits : p.Admits call = p.MayConsume)
    (hrefused : ∀ e, checkReadable c = .error e c → call.step c = .error e c)
    (hread : Readable c.frames → p.Admits call → Lands p call (call.step c)) :
    Lands p call (call.step c) := by
  have hiff := readable_iff hc.scopes hdoc
  by_cases hreadable : Readable c.frames
  · exact hread hreadable (hadmits ▸ hiff.mp hreadable)
  · obtain ⟨misuse, hmisuse⟩ := checkReadable_of_not_readable hreadable
    rw [hrefused _ hmisuse]
    refine lands_misused hc (fun hin => hreadable (hiff.mpr ?_)) misuse
    exact hadmits ▸ hin

/-! ### Going on -/

/-- A node that the cursor has passed. -/
theorem StandsAt.consumed {c' : Cursor} (hc : c.StandsAt ⟨spot.ahead n, announced⟩)
    (hpast : c.Past n.bytes (c.frames.modifyHead Frame.passed) c') :
    c'.StandsAt ⟨spot.behind n, false⟩ where
  position := by
    have hposition := hc.position
    rw [Spot.before_ahead] at hposition
    rw [hpast.source, Source.position_advance, hposition, Spot.before_behind,
      List.length_append]
  left := by
    have hleft := hc.left
    rw [Spot.after_ahead] at hleft
    rw [hpast.source, Source.left_advance_length hleft, Spot.after_behind]
  scopes := hpast.frames ▸ tracks_behind (tracks_consumed hc.scopes) n
  announced := fun h => Bool.noConfusion h
  lax := hpast.strict.trans hc.lax

/-- A container that the cursor has gone into. -/
theorem StandsAt.entered {c' : Cursor} {kind : Container} {header : Bytes} {items : List Node}
    {key : Nat} (hc : c.StandsAt ⟨spot.ahead (.container kind header items), announced⟩)
    (hpast : c.Past header
      (.opened kind key items.length :: c.frames.modifyHead Frame.passed) c') :
    c'.StandsAt ⟨.inside spot kind header [] items, false⟩ where
  position := by
    have hposition := hc.position
    rw [Spot.before_ahead] at hposition
    rw [hpast.source, Source.position_advance, hposition, Spot.before, bytesAll,
      List.append_nil, List.length_append]
  left := by
    have hleft := hc.left
    rw [Spot.after_ahead, Node.bytes, List.append_assoc] at hleft
    rw [hpast.source, Source.left_advance_length hleft]
    rfl
  scopes := hpast.frames ▸
    Tracks.inside (f := .opened kind key items.length) (tracks_consumed hc.scopes) rfl
  announced := fun h => Bool.noConfusion h
  lax := hpast.strict.trans hc.lax

/-- A container that the cursor has gone out of. -/
theorem StandsAt.gone {c' : Cursor} {outer : Spot} {kind : Container} {header : Bytes}
    {passed todo : List Node} (hc : c.StandsAt ⟨.inside outer kind header passed todo, announced⟩)
    (hscopes : Tracks fs outer false) (hpast : c.Past (bytesAll todo) fs c') :
    c'.StandsAt ⟨outer.behind (.container kind header (passed ++ todo)), false⟩ where
  position := by
    rw [hpast.source, Source.position_advance, hc.position, Spot.before_behind, Spot.before,
      Node.bytes, Node.bytesAll_append]
    simp only [List.length_append]
    omega
  left := by
    have hleft := hc.left
    rw [Spot.after] at hleft
    rw [hpast.source, Source.left_advance_length hleft, Spot.after_behind]
  scopes := hpast.frames ▸ tracks_behind hscopes _
  announced := fun h => Bool.noConfusion h
  lax := hpast.strict.trans hc.lax

/-! ### The calls one by one -/

theorem lands_key (hc : c.StandsAt p) (hdoc : WellFormedAll p.spot.doc) :
    Lands p .key (Call.key.step c) := by
  obtain ⟨spot, announced⟩ := p
  generalize hframes : c.frames = fs
  have hscopes := hframes ▸ hc.scopes
  cases hscopes with
  | root passed todo =>
      have hnone : Call.key.step c = .error (.readerContext .noScope) c := by
        rw [Call.step, announceKey, innermost]
        simp [bind_apply, hframes, refuse]
      rw [hnone]
      refine lands_misused hc ?_ _
      exact fun hin => hin.1
  | @inside fs outer f header passed todo houter hremaining =>
      have hkey := atKey_iff hdoc hremaining
      rw [Call.step, announceKey, bind_of_ok (innermost_of_frames hframes)]
      by_cases hkind : f.kind = .map
      · rw [if_neg (fun hne => hne hkind)]
        by_cases hodd : f.remaining % 2 = 1
        · rw [if_pos hodd]
          refine lands_misused hc (fun hin => ?_) _
          have hat := hkey.mpr hin.1
          simp [Frame.atKey, hodd] at hat
        · rw [if_neg hodd]
          by_cases hpending : f.keyPending = true
          · rw [if_pos hpending]
            refine lands_misused hc (fun hin => ?_) _
            exact Bool.noConfusion (hpending.symm.trans hin.2)
          · rw [if_neg hpending, modifyInnermost_of_frames _ hframes]
            have hfalse := Bool.eq_false_iff.mpr hpending
            have hat : f.atKey = true := by
              simp [Frame.atKey, hkind]
              omega
            have hleads : Leads ⟨.inside outer f.kind header passed todo, f.keyPending⟩ .key
                ⟨.inside outer f.kind header passed todo, true⟩ := by
              rw [hfalse]
              exact .key _
            refine lands_done ⟨hkey.mp hat, hfalse⟩ hleads rfl ?_
            exact ⟨hc.position, hc.left, Tracks.inside (f := { f with keyPending := true })
              houter hremaining, fun _ => hkey.mp hat, hc.lax⟩
      · rw [if_pos hkind]
        refine lands_misused hc ?_ _
        exact fun hin => hkind hin.1.1

theorem lands_leave (kind : Container) (hc : c.StandsAt p) (hdoc : WellFormedAll p.spot.doc) :
    Lands p (.leave kind) ((Call.leave kind).step c) := by
  obtain ⟨spot, announced⟩ := p
  generalize hframes : c.frames = fs
  have hscopes := hframes ▸ hc.scopes
  cases hscopes with
  | root passed todo =>
      have hnone : (Call.leave kind).step c = .error (.readerContext .noScope) c := by
        rw [Call.step, innermost]
        simp [bind_apply, hframes, refuse]
      rw [hnone]
      refine lands_misused hc ?_ _
      rintro ⟨outer, header, passed, todo, hspot⟩
      cases hspot
  | @inside fs outer f header passed todo houter hremaining =>
      rw [Call.step, bind_of_ok (innermost_of_frames hframes)]
      by_cases hkind : f.kind = kind
      · subst hkind
        have hsettled := settledIn_of_tracks hc.scopes hdoc hc.announced
        rw [hframes] at hsettled
        have hleave := endScope_completes (Spot.wellFormed_inside hdoc).2 hframes hremaining
          hsettled hc.lax hc.left
        refine hleave.lands fun c' hpast => ?_
        exact lands_done ⟨outer, header, passed, todo, rfl⟩ (.leave ..)
          (Spot.doc_left outer f.kind header passed todo) (hc.gone houter hpast)
      · have hother : endScope kind f.id c = .error (.readerContext .closedAsOther) c := by
          simp [endScope, scopesUpTo, bind_apply, hframes, List.findIdx?_cons, hkind, refuse]
        rw [hother]
        refine lands_misused hc ?_ _
        rintro ⟨outer', header', passed', todo', hspot⟩
        cases hspot
        exact hkind rfl

/-- What comes next at a place where it may be consumed: a node, or the end of
the document. -/
theorem MayConsume.cases {p : Place} (h : p.MayConsume) :
    (∃ (spot : Spot) (n : Node), p = ⟨spot.ahead n, p.announced⟩) ∨ p.spot.after = [] := by
  obtain ⟨spot, announced⟩ := p
  obtain ⟨t, n, rfl⟩ | ⟨passed, rfl⟩ := Spot.exists_ahead h.1
  · exact .inl ⟨t, n, rfl⟩
  · exact .inr rfl

theorem begins_of_headerOf {kind : Container} {s t : Source} {n : Nat}
    (h : headerOf kind s = .ok n t) :
    ∃ bs rest, s.left = bs ++ rest ∧ Begins bs kind.entity := by
  cases kind with
  | array =>
      obtain ⟨bs, rest, hl, hheader, -⟩ := Get.accepts_arrayHeader.sound h
      exact ⟨bs, rest, hl, begins_array hheader⟩
  | map =>
      obtain ⟨bs, rest, hl, hheader, -⟩ := Get.accepts_mapHeader.sound h
      exact ⟨bs, rest, hl, begins_map hheader⟩

theorem mild_headerOf (kind : Container) : (headerOf kind).Mild := by
  cases kind <;> exact Get.mild_length _ _

theorem beginScope_refused (kind : Container) {e : Error} (h : checkReadable c = .error e c) :
    discard (beginScope kind) c = .error e c := by
  have hbegin : beginScope kind c = .error e c := by
    cases kind <;> exact bind_of_error h
  rw [discard_apply, bind_of_error hbegin]

theorem lands_enter (kind : Container) (hc : c.StandsAt p) (hdoc : WellFormedAll p.spot.doc) :
    Lands p (.enter kind) ((Call.enter kind).step c) := by
  refine lands_consuming hc hdoc rfl (fun _ => beginScope_refused kind) fun hreadable hin => ?_
  rw [Call.step]
  cases hheader : headerOf kind c.source with
  | error e t =>
      rw [discard_apply, bind_of_error (beginScope_of_error hreadable hheader)]
      exact lands_mild hc hin (mild_headerOf kind _ _ _ hheader)
  | ok count t =>
      -- the header that was read is that of the node that comes next
      obtain ⟨bs, rest, hl, hbegins⟩ := begins_of_headerOf hheader
      obtain ⟨spot, n, hp⟩ | hend := MayConsume.cases hin
      · obtain ⟨spot', announced⟩ := p
        cases hp
        have hn := Spot.wellFormed_ahead hdoc
        have hleft := hc.left
        rw [Spot.after_ahead] at hleft
        obtain ⟨header, items, rfl⟩ := hn.container_of_begins hbegins (hleft.symm.trans hl)
        have hleft' : c.source.left = header ++ (bytesAll items ++ spot.after) := by
          rw [hleft, Node.bytes, List.append_assoc]
        refine (beginScope_completes hn.1 hreadable
          (settledIn_of_tracks hc.scopes hdoc hc.announced) hleft').lands fun c' hc' => ?_
        obtain ⟨-, key, hpast⟩ := hc'
        exact lands_done hin (.enter ..) (Spot.doc_entered ..) (hc.entered hpast)
      · rw [hc.left, hend] at hl
        exact absurd (List.append_eq_nil_iff.mp hl.symm).1 hbegins.ne_nil

theorem marker_of_nil {s : Source} (h : s.left = []) :
    ∃ e t, Get.marker s = .error e t ∧ e.kind ≠ .unexpectedFormat ∧ e.kind ≠ .readerContext := by
  cases hmarker : Get.marker s with
  | error e t => exact ⟨e, t, rfl, Get.hard_marker _ _ _ hmarker⟩
  | ok m t => cases hk : s.kind <;> simp [Get.marker, bind_apply, Get.peek, h, hk] at hmarker

theorem skipWithin_of_nil (levels : Nat) (h : c.source.left = []) :
    ∃ e c', skipWithin levels c = .error e c' ∧
      e.kind ≠ .unexpectedFormat ∧ e.kind ≠ .readerContext := by
  obtain ⟨e, t, hmarker, he⟩ := marker_of_nil h
  have hsource : fromSource Get.marker c = .error e { c with source := t } := by
    rw [fromSource, hmarker]
  refine ⟨e, { c with source := t }, ?_, he⟩
  cases levels <;> exact bind_of_error hsource

theorem lands_skip (hc : c.StandsAt p) (hdoc : WellFormedAll p.spot.doc) :
    Lands p .skip (Call.skip.step c) := by
  refine lands_consuming hc hdoc rfl (fun _ => bind_of_error) fun hreadable hin => ?_
  rw [Call.step, skip_of_readable hreadable]
  obtain ⟨spot, n, hp⟩ | hend := MayConsume.cases hin
  · obtain ⟨spot', announced⟩ := p
    cases hp
    have hleft := hc.left
    rw [Spot.after_ahead] at hleft
    have hpasses := passes_skipWithin (c.maxDepth - c.frames.length) n c _
      (Spot.wellFormed_ahead hdoc) hreadable
      (settledIn_of_tracks hc.scopes hdoc hc.announced) hleft (by omega)
    refine hpasses.lands fun c' hpast => ?_
    exact lands_done hin (.skip ..) (Spot.doc_passed ..) (hc.consumed hpast)
  · obtain ⟨e, c', hfail, he⟩ := skipWithin_of_nil (c.maxDepth - c.frames.length)
      (hc.left.trans hend)
    rw [hfail]
    exact lands_hard he

theorem lands_read {s : Schema} (hs : s.isLeaf = true) (hc : c.StandsAt p)
    (hdoc : WellFormedAll p.spot.doc) : Lands p (.read s hs) ((Call.read s hs).step c) := by
  obtain ⟨β, reader, check, hreader, hcheck, -, hrestore⟩ := Schema.restore_leaf hs s.fresh
  have hg := hreader c.policy
  replace hrestore := hrestore c
  generalize reader c.policy = g at hg hrestore
  have hstep : (Call.read s hs).step c =
      (do let b ← leaf g; discard (Get.ofExcept (check b) : Step s.Val)) c := by
    rw [Call.step, discard_apply, bind_apply, hrestore, ← bind_apply, bind_assoc]
    rfl
  refine lands_consuming hc hdoc rfl (fun e he => ?_) fun hreadable hin => ?_
  · have hleaf : leaf g c = .error e c := bind_of_error he
    rw [hstep, bind_of_error hleaf]
  · rw [hstep]
    cases hsource : g c.source with
    | error e t =>
        rw [bind_of_error (leaf_of_error hreadable hsource)]
        exact lands_mild hc hin (hg.mild _ _ _ hsource)
    | ok b t =>
        obtain ⟨bs, rest, hl, hbs, rfl⟩ := hg.whole _ _ _ hsource
        have hread := leaf_of_ok hreadable hsource
        rw [modifyHead_stepped (settledIn_of_tracks hc.scopes hdoc hc.announced)] at hread
        obtain ⟨spot, n, hp⟩ | hend := MayConsume.cases hin
        · obtain ⟨spot', announced⟩ := p
          cases hp
          have hleft := hc.left
          rw [Spot.after_ahead] at hleft
          obtain rfl := (Spot.wellFormed_ahead hdoc).leaf_of_leaf hbs (hleft.symm.trans hl)
          have hleads : Leads ⟨spot.ahead (.leaf bs), announced⟩ (.read s hs)
            ⟨spot.behind (.leaf bs), false⟩ := .read ..
          have hat : StandsAt { c with
              source := c.source.advance bs.length
              frames := c.frames.modifyHead Frame.passed } ⟨spot.behind (.leaf bs), false⟩ :=
            hc.consumed ⟨rfl, rfl, rfl, rfl, rfl⟩
          rw [bind_of_ok hread]
          cases hfound : check b with
          | ok a => exact lands_done hin hleads (Spot.doc_passed ..) hat
          | error e =>
              obtain he | ⟨he, hstamp⟩ := hcheck b e hfound
              · exact lands_hard (by rw [he]; decide)
              · obtain ⟨cause, rfl⟩ := exists_mismatch he
                exact fun _ => ⟨_, .rejected cause hstamp hin hleads, Spot.doc_passed .., hat⟩
        · rw [hc.left, hend] at hl
          obtain ⟨e, hbegins, -⟩ := hbs.begins
          exact absurd (List.append_eq_nil_iff.mp hl.symm).1 hbegins.ne_nil

theorem lands_call (call : Call) (hc : c.StandsAt p) (hdoc : WellFormedAll p.spot.doc) :
    Lands p call (call.step c) := by
  cases call with
  | enter kind => exact lands_enter kind hc hdoc
  | leave kind => exact lands_leave kind hc hdoc
  | key => exact lands_key hc hdoc
  | skip => exact lands_skip hc hdoc
  | read s hs => exact lands_read hs hc hdoc

/-! ### Journeys -/

/-- A failure that leaves the cursor in its document. -/
def Harmless (e : Error) : Prop := e.kind = .unexpectedFormat ∨ e.kind = .readerContext

theorem attempt_comes {call : Call} (hc : c.StandsAt p) (hdoc : WellFormedAll p.spot.doc)
    (hfailure : ∀ e, (attempt call c).1 = some e → Harmless e) :
    ∃ q, Comes p call (attempt call c).1 q ∧ q.spot.doc = p.spot.doc ∧
      (attempt call c).2.StandsAt q := by
  have hlands := lands_call call hc hdoc
  unfold attempt at hfailure ⊢
  cases hstep : call.step c with
  | ok a c' =>
      rw [hstep] at hlands
      exact hlands
  | error e c' =>
      rw [hstep] at hlands hfailure
      exact hlands (hfailure e rfl)

theorem attempts_journey {calls : List Call} (hc : c.StandsAt p)
    (hdoc : WellFormedAll p.spot.doc)
    (hfailures : ∀ call e, (call, some e) ∈ (attempts calls c).1 → Harmless e) :
    ∃ q, Journey p (attempts calls c).1 q ∧ q.spot.doc = p.spot.doc ∧
      (attempts calls c).2.StandsAt q := by
  induction calls generalizing c p with
  | nil => exact ⟨p, .stay p, rfl, hc⟩
  | cons call calls ih =>
      have hfirst : ∀ e, (attempt call c).1 = some e → Harmless e := fun e he =>
        hfailures call e (he ▸ List.mem_cons_self ..)
      obtain ⟨q, hcomes, hq, hat⟩ := attempt_comes hc hdoc hfirst
      obtain ⟨r, hjourney, hr, hend⟩ := ih hat (hq ▸ hdoc) fun call' e he =>
        hfailures call' e (List.mem_cons_of_mem _ he)
      exact ⟨r, .go hcomes hjourney, hr.trans hq, hend⟩

/-- A cursor before a document. -/
def ofDocument (policy : DecodePolicy) (maxDepth : Nat) (kind : SourceKind) (doc : List Node) :
    Cursor :=
  { policy, maxDepth, source := .ofBytes kind (bytesAll doc) }

theorem standsAt_ofDocument (policy : DecodePolicy) (maxDepth : Nat) (kind : SourceKind)
    (doc : List Node) : (ofDocument policy maxDepth kind doc).StandsAt ⟨.root [] doc, false⟩ where
  position := rfl
  left := rfl
  scopes := .root [] doc
  announced := fun h => Bool.noConfusion h
  lax := rfl

/-- Whatever calls are made on a fresh cursor, as long as those that fail do so
because they are out of order or of another kind than what comes next, they are
a journey through the document. The cursor is at the place where the journey
ends: what comes next in the document is what it has left to read, its scopes
are those of the containers around, each with the elements still to come, and
its depth is theirs. -/
theorem follows_document (policy : DecodePolicy) (maxDepth : Nat) (kind : SourceKind)
    (doc : List Node) (hdoc : WellFormedAll doc) (calls : List Call)
    (hfailures : ∀ call e,
      (call, some e) ∈ (attempts calls (ofDocument policy maxDepth kind doc)).1 → Harmless e) :
    let run := attempts calls (ofDocument policy maxDepth kind doc)
    ∃ p, Journey ⟨.root [] doc, false⟩ run.1 p ∧ p.spot.doc = doc ∧ run.2.StandsAt p ∧
      run.2.source.left = (bytesAll doc).drop run.2.source.position ∧
      run.2.depth = p.spot.depth := by
  have hroot : (Spot.root [] doc).doc = doc := rfl
  obtain ⟨p, hjourney, hp, hat⟩ := attempts_journey
    (standsAt_ofDocument policy maxDepth kind doc) (hroot.symm ▸ hdoc) hfailures
  have hdrop := congrArg (·.drop p.spot.before.length) p.spot.bytes_doc
  simp only [List.drop_left, hp] at hdrop
  refine ⟨p, hjourney, hp.trans hroot, hat, ?_, depth_of_tracks hat.scopes⟩
  rw [hat.left, hat.position, ← hdrop]
  rfl

/-- A map of a name to an array, with lengths of two bytes. -/
def namedArray : List Node :=
  [.container .map [0xde, 0x00, 0x01] [.leaf [0xd9, 0x01, 0x61],
    .container .array [0xdc, 0x00, 0x02] [.leaf [0x01], .leaf [0xc0]]]]

theorem wellFormed_namedArray : WellFormedAll namedArray :=
  ⟨⟨⟨1, .sized (by decide) rfl, rfl⟩, @Leaf.text [0xd9, 0x01] [0x61] (.sized (by decide) rfl),
    ⟨.sized (by decide) rfl, .number (.positiveFixint (i := ⟨1, by decide⟩) (by decide) rfl), .nil,
      trivial⟩, trivial⟩, trivial⟩

/-- The calls lead into the array, as far as its second element. Two of them are
refused on the way. -/
theorem follows_document_into_array :
    let name := Call.read (.text .owned []) rfl
    let outcomes : List (Call × Option Error) := [(.enter .map, none),
      (name, some (.readerContext .keyNotAnnounced)), (.key, none), (name, none),
      (name, some (.unexpectedFormat (.marker .string ⟨.array16, 0⟩))),
      (.enter .array, none), (.skip, none)]
    let run := attempts (outcomes.map Prod.fst) (ofDocument .widening 256 .memory namedArray)
    run.1 = outcomes ∧ run.2.source.position = 10 ∧ run.2.depth = 2 ∧
      ∃ p, Journey ⟨.root [] namedArray, false⟩ run.1 p ∧ p.spot.doc = namedArray ∧
        run.2.StandsAt p ∧
        run.2.source.left = (bytesAll namedArray).drop run.2.source.position ∧
        run.2.depth = p.spot.depth := by
  intro name outcomes run
  have hrun : run.1 = outcomes := rfl
  have hfailures : ∀ call e, (call, some e) ∈ run.1 → Harmless e := by
    rw [hrun]
    intro call e he
    have hfound : call = name ∧ e = .readerContext .keyNotAnnounced ∨
        call = name ∧ e = .unexpectedFormat (.marker .string ⟨.array16, 0⟩) := by
      simpa [outcomes] using he
    obtain ⟨-, rfl⟩ | ⟨-, rfl⟩ := hfound
    · exact .inr rfl
    · exact .inl rfl
  exact ⟨hrun, rfl, rfl, follows_document .widening 256 .memory namedArray
    wellFormed_namedArray _ hfailures⟩

end MsgPack.Cursor
