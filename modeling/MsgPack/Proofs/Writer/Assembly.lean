import MsgPack.Proofs.Schema.Fits
import MsgPack.Writer.Builder

/-!
The builder's step in its parts, and what it assembles. An event that is not
refused is accounted for in the scopes, as a serializer does it, and then
changes the value under construction, whatever the scopes are. The events of a
tree change it as placing the value of the tree does.
-/

namespace MsgPack

namespace Builder

variable {b c : Builder} {e : Event} {es : List Event} {policy : EncodePolicy}

/-- Takes out the innermost container and places it. -/
def finish : Step Unit := do
  let b ← get
  match b.frames with
  | [] => pure ()
  | top :: outer =>
    set { b with frames := outer }
    place top.value

/-- What an event does besides its accounting. -/
def assemble : Event → Step Unit
  | .nil => place .nil
  | .bool b => place (.bool b)
  | .int _ i => place (.number (.ofInt i))
  | .float p x => place (.number (.ofFloat p x))
  | .char cp => place (.string ((Utf8.encode? cp).getD []))
  | .text bs => place (.string bs)
  | .extension e => place (.extension e.type e.data)
  | .beginBinary _ => modify fun b => { b with binary := [] }
  | .chunk bs => modify fun b => { b with binary := b.binary ++ bs }
  | .endBinary => do
    let b ← get
    set { b with binary := [] }
    place (.binary b.binary)
  | .beginArray _ => push (.array [])
  | .beginMap _ => push (.map [] none)
  | .endArray | .endMap => finish
  | .key => pure ()

/-! ### The step in parts -/

theorem onScopes_apply {α : Type} (step : Scopes.Step α) (b : Builder) :
    onScopes step b =
      match step b.scopes with
      | .error err scopes => .error err { b with scopes }
      | .ok a scopes => .ok a { b with scopes } := by
  rw [onScopes]
  cases step b.scopes <;> rfl

/-- An event that is refused unseen leaves the builder as it is. -/
theorem step_refused {err : Error} (h : e.refusal? = some err) (b : Builder) :
    ∃ err', step e b = .error err' b ∧ err'.kind = err.kind := by
  cases e with
  | char cp =>
      simp only [Event.refusal?] at h
      split at h <;> cases h
      next hcp =>
        cases hbs : Utf8.encode? cp with
        | some bs => simp [hbs] at hcp
        | none => exact ⟨_, by simp [step, hbs], rfl⟩
  | beginBinary size =>
      cases size <;> cases h
      exact ⟨_, rfl, rfl⟩
  | beginArray size =>
      cases size <;> cases h
      exact ⟨_, rfl, rfl⟩
  | beginMap size =>
      cases size <;> cases h
      exact ⟨_, rfl, rfl⟩
  | _ => cases h

/-- Accounting first, then assembling. -/
theorem onScopes_bind (account : Scopes.Step Unit) (rest : Step Unit) (b : Builder) :
    (do onScopes account; rest) b =
      match account b.scopes with
      | .error err scopes => .error err { b with scopes }
      | .ok _ scopes => rest { b with scopes } := by
  rw [bind_apply, onScopes_apply]
  cases account b.scopes <;> rfl

theorem openScope_bind (kind : ScopeKind) (what : LengthUnknown) (n : Nat) (rest : Step Unit)
    (b : Builder) :
    (do openScope kind what (some n); rest) b =
      match Scopes.nextElement b.scopes with
      | .error err scopes => .error err { b with scopes }
      | .ok _ scopes => rest { b with scopes := { kind, declared := n } :: scopes } := by
  have hassoc : (do openScope kind what (some n); rest) =
      (do onScopes Scopes.nextElement; onScopes (Scopes.enter kind n); rest : Step Unit) := by
    simp only [openScope, bind_assoc]
  rw [hassoc, onScopes_bind]
  cases Scopes.nextElement b.scopes with
  | error err scopes => rfl
  | ok u scopes => exact onScopes_bind ..

theorem step_eq (h : e.refusal? = none) (b : Builder) :
    step e b =
      match e.account b.scopes with
      | .error err scopes => .error err { b with scopes }
      | .ok _ scopes => assemble e { b with scopes := e.opens?.toList ++ scopes } := by
  cases e with
  | nil => exact onScopes_bind ..
  | bool x => exact onScopes_bind ..
  | int t i => exact onScopes_bind ..
  | float p x => exact onScopes_bind ..
  | char cp =>
      cases hbs : Utf8.encode? cp with
      | none => simp [Event.refusal?, hbs] at h
      | some bs =>
          simp only [step, assemble, hbs]
          exact onScopes_bind ..
  | text bs => exact onScopes_bind ..
  | extension x => exact onScopes_bind ..
  | beginBinary size =>
      cases size with
      | none => cases h
      | some n => exact openScope_bind ..
  | chunk bs => exact onScopes_bind ..
  | endBinary => exact onScopes_bind ..
  | beginArray size =>
      cases size with
      | none => cases h
      | some n => exact openScope_bind ..
  | endArray => exact onScopes_bind ..
  | beginMap size =>
      cases size with
      | none => cases h
      | some n => exact openScope_bind ..
  | endMap => exact onScopes_bind ..
  | key =>
      refine (onScopes_apply ..).trans ?_
      simp only [Event.account]
      cases Scopes.announceKey b.scopes <;> rfl

/-! ### Runs -/

/-- A builder with nothing in it but its root. -/
def ofRoot (v : OwnedValue) : Builder := { result := some v }

/-- Assembling, step after step, with no accounting. -/
def assembleAll (es : List Event) : Step Unit := forM es assemble

theorem assembleAll_cons {d : Builder} (h : assemble e b = .ok () d) (es : List Event) :
    assembleAll (e :: es) b = assembleAll es d := by
  rw [assembleAll]
  rw [List.forM_cons, bind_of_ok h]
  rfl

theorem assembleAll_append {d : Builder} (h : assembleAll es b = .ok () d) (es' : List Event) :
    assembleAll (es ++ es') b = assembleAll es' d := by
  unfold assembleAll at *
  rw [List.forM_append, bind_of_ok h]

theorem assembleAll_singleton (e : Event) : assembleAll [e] = assemble e := by
  simp [assembleAll]

theorem place_apply (v : OwnedValue) (b : Builder) :
    place v b =
      match b.frames with
      | [] =>
        if b.result.isSome then .error (.writerState .rootComplete) b
        else .ok () { b with result := some v }
      | top :: outer => .ok () { b with frames := top.add v :: outer } := by
  rw [place]
  rw [bind_of_ok (get_apply b)]
  cases b.frames with
  | nil =>
      dsimp only
      split <;> rfl
  | cons top outer => rfl

theorem place_scopes (v : OwnedValue) (h : place v b = .ok () c) (scopes : Scopes) :
    place v { b with scopes } = .ok () { c with scopes } ∧ c.scopes = b.scopes := by
  rw [place_apply] at h ⊢
  cases hframes : b.frames with
  | nil =>
      simp only [hframes] at h ⊢
      split at h <;> cases h
      next hr => simp [hr]
  | cons top outer =>
      simp only [hframes] at h ⊢
      cases h
      simp

theorem finish_apply (b : Builder) :
    finish b =
      match b.frames with
      | [] => .ok () b
      | top :: outer => place top.value { b with frames := outer } := by
  rw [finish]
  rw [bind_of_ok (get_apply b)]
  cases b.frames <;> rfl

/-- The builder with one more container under construction. -/
def inside (b : Builder) (top : Frame) : Builder := { b with frames := top :: b.frames }

theorem place_inside (v : OwnedValue) (b : Builder) (top : Frame) :
    place v (b.inside top) = .ok () (b.inside (top.add v)) :=
  place_apply ..

theorem finish_inside (b : Builder) (top : Frame) :
    finish (b.inside top) = place top.value b :=
  finish_apply ..

theorem finish_scopes (h : finish b = .ok () c) (scopes : Scopes) :
    finish { b with scopes } = .ok () { c with scopes } ∧ c.scopes = b.scopes := by
  obtain ⟨frames, result, binary, old⟩ := b
  cases frames with
  | nil =>
      cases h
      exact ⟨rfl, rfl⟩
  | cons top outer =>
      rw [finish_apply] at h ⊢
      exact place_scopes (b := ⟨outer, result, binary, old⟩) top.value h scopes

/-- Assembling neither reads the scopes nor changes them. -/
theorem assemble_scopes (h : assemble e b = .ok () c) (scopes : Scopes) :
    assemble e { b with scopes } = .ok () { c with scopes } ∧ c.scopes = b.scopes := by
  cases e with
  | beginBinary size => cases h; exact ⟨rfl, rfl⟩
  | beginArray size => cases h; exact ⟨rfl, rfl⟩
  | beginMap size => cases h; exact ⟨rfl, rfl⟩
  | chunk bs => cases h; exact ⟨rfl, rfl⟩
  | key => cases h; exact ⟨rfl, rfl⟩
  | endBinary => exact place_scopes (b := { b with binary := [] }) _ h scopes
  | endArray => exact finish_scopes h scopes
  | endMap => exact finish_scopes h scopes
  | _ => exact place_scopes _ h scopes

/-- A step that succeeds has been accounted for and has assembled. -/
theorem step_ok (h : step e b = .ok () c) :
    e.refusal? = none ∧ e.act b.scopes = .ok () c.scopes ∧
      ∀ scopes, assemble e { b with scopes } = .ok () { c with scopes } := by
  cases hrefusal : e.refusal? with
  | some err =>
      obtain ⟨err', herr, -⟩ := step_refused hrefusal b
      rw [herr] at h
      cases h
  | none =>
      rw [step_eq hrefusal] at h
      cases haccount : e.account b.scopes with
      | error err inner =>
          rw [haccount] at h
          cases h
      | ok u inner =>
          rw [haccount] at h
          refine ⟨rfl, ?_, fun scopes => (assemble_scopes h scopes).1⟩
          exact Scopes.act_ok_iff.mpr ⟨inner, haccount, (assemble_scopes h []).2⟩

theorem run_ok (h : Writer.run es b = .ok () c) :
    Scopes.tell es b.scopes = .ok () c.scopes ∧
      ∀ scopes, assembleAll es { b with scopes } = .ok () { c with scopes } := by
  induction es generalizing b with
  | nil =>
      cases h
      exact ⟨rfl, fun scopes => rfl⟩
  | cons e es ih =>
      rw [Writer.run_cons, bind_eq_ok_iff] at h
      obtain ⟨_, d, hstep, hrest⟩ := h
      obtain ⟨-, hact, hassemble⟩ := step_ok hstep
      obtain ⟨htell, hall⟩ := ih hrest
      refine ⟨?_, fun scopes => ?_⟩
      · rw [Scopes.tell_cons]
        exact (bind_of_ok hact).trans htell
      · rw [assembleAll_cons (hassemble scopes)]
        exact hall scopes

/-- Events that the scopes have a place for are assembled. -/
theorem run_of_assemble {scopes scopes' : Scopes} (hes : ∀ e ∈ es, e.refusal? = none)
    (htell : Scopes.tell es scopes = .ok () scopes') (hall : assembleAll es b = .ok () c) :
    Writer.run es { b with scopes } = .ok () { c with scopes := scopes' } := by
  induction es generalizing b scopes with
  | nil =>
      cases htell
      cases hall
      rfl
  | cons e es ih =>
      rw [List.forall_mem_cons] at hes
      obtain ⟨inner, haccount, hrest⟩ := Scopes.tell_cons_ok_iff.mp htell
      rw [assembleAll, List.forM_cons] at hall
      obtain ⟨_, d, hfirst, hothers⟩ := bind_eq_ok_iff.mp hall
      have hstep : (Writer.step e : Step Unit) { b with scopes } =
          .ok () { d with scopes := e.opens?.toList ++ inner } := by
        refine (step_eq hes.1 _).trans ?_
        dsimp only
        rw [haccount]
        exact (assemble_scopes hfirst _).1
      rw [Writer.run_cons, bind_of_ok hstep]
      exact ih hes.2 hrest hothers

end Builder

/-! ### Tellings -/

section Tellings

open Builder

variable {policy : EncodePolicy}

theorem assemble_chunks (chunks : List Bytes) (b : Builder) :
    assembleAll (chunks.map .chunk) b =
      .ok () { b with binary := b.binary ++ chunks.flatten } := by
  induction chunks generalizing b with
  | nil => simp [assembleAll]
  | cons c chunks ih =>
      have hchunk : Builder.assemble (.chunk c) b =
          .ok () { b with binary := b.binary ++ c } := rfl
      rw [List.map_cons, assembleAll_cons hchunk, ih, List.flatten_cons, List.append_assoc]

mutual

/-- Assembling a tree places its value. -/
theorem Tells.assemble {es : List Event} {t : Tree} (h : Tells es t)
    (hpolicy : policy ≠ .aggressive) {b : Builder} (hb : b.binary = []) :
    assembleAll es b = place (t.value policy) b := by
  cases h with
  | nil => rw [assembleAll_singleton, Builder.assemble, Tree.value]
  | bool x => rw [assembleAll_singleton, Builder.assemble, Tree.value]
  | int t i => rw [assembleAll_singleton, Builder.assemble, Tree.value]
  | float p x =>
      rw [assembleAll_singleton, Builder.assemble, Tree.value, EncodePolicy.numberOf_eq hpolicy]
  | text bs => rw [assembleAll_singleton, Builder.assemble, Tree.value]
  | char hcp => rw [assembleAll_singleton, Builder.assemble, Tree.value, hcp, Option.getD_some]
  | extension x => rw [assembleAll_singleton, Builder.assemble, Tree.value]
  | binary chunks =>
      obtain ⟨frames, result, binary, scopes⟩ := b
      obtain rfl : binary = [] := hb
      have hbegin : Builder.assemble (.beginBinary (some chunks.flatten.length))
          ⟨frames, result, [], scopes⟩ = .ok () ⟨frames, result, [], scopes⟩ := rfl
      rw [assembleAll_cons hbegin, assembleAll_append (assemble_chunks chunks _),
        assembleAll_singleton]
      rfl
  | @array es elems hs =>
      have hbegin : Builder.assemble (.beginArray (some elems.length)) b =
          .ok () (b.inside (.array [])) := rfl
      rw [assembleAll_cons hbegin, assembleAll_append (TellsElems.assemble hs hpolicy hb []),
        assembleAll_singleton, Builder.assemble, finish_inside, Frame.value, List.append_nil,
        List.reverse_reverse, Tree.value]
  | @map es entries hs =>
      have hbegin : Builder.assemble (.beginMap (some entries.length)) b =
          .ok () (b.inside (.map [] none)) := rfl
      rw [assembleAll_cons hbegin, assembleAll_append (TellsEntries.assemble hs hpolicy hb []),
        assembleAll_singleton, Builder.assemble, finish_inside, Frame.value, List.append_nil,
        List.reverse_reverse, Tree.value]
termination_by sizeOf t

/-- In an array the values follow each other. -/
theorem TellsElems.assemble {es : List Event} {ts : List Tree} (h : TellsElems es ts)
    (hpolicy : policy ≠ .aggressive) {b : Builder} (hb : b.binary = [])
    (found : List OwnedValue) :
    assembleAll es (b.inside (.array found)) =
      .ok () (b.inside (.array ((Tree.valueElems policy ts).reverse ++ found))) := by
  cases h with
  | nil => rfl
  | @cons es es' t ts ht hts =>
      have hplace := (Tells.assemble ht hpolicy (b := b.inside (.array found)) hb).trans
        (place_inside ..)
      rw [assembleAll_append hplace, Tree.valueElems, List.reverse_cons, List.append_assoc]
      exact TellsElems.assemble hts hpolicy hb (t.value policy :: found)
termination_by sizeOf ts

/-- In a map keys and values alternate. -/
theorem TellsEntries.assemble {es : List Event} {entries : List (Tree × Tree)}
    (h : TellsEntries es entries) (hpolicy : policy ≠ .aggressive) {b : Builder}
    (hb : b.binary = []) (found : List (OwnedValue × OwnedValue)) :
    assembleAll es (b.inside (.map found none)) =
      .ok () (b.inside (.map ((Tree.valueEntries policy entries).reverse ++ found) none)) := by
  cases h with
  | nil => rfl
  | @cons ks vs es k v entries hk hv hs =>
      have hannounce : Builder.assemble .key (b.inside (.map found none)) =
          .ok () (b.inside (.map found none)) := rfl
      have hkey := (Tells.assemble hk hpolicy (b := b.inside (.map found none)) hb).trans
        (place_inside ..)
      have hval := (Tells.assemble hv hpolicy
        (b := b.inside (.map found (some (k.value policy)))) hb).trans (place_inside ..)
      rw [assembleAll_cons hannounce, assembleAll_append hkey]
      refine (assembleAll_append hval es).trans ?_
      rw [Tree.valueEntries, List.reverse_cons, List.append_assoc]
      exact TellsEntries.assemble hs hpolicy hb ((k.value policy, v.value policy) :: found)
termination_by sizeOf entries

end

theorem Builder.unrefused_of_run {es : List Event} {b c : Builder}
    (h : Writer.run es b = .ok () c) : ∀ e ∈ es, e.refusal? = none := by
  induction es generalizing b with
  | nil => exact List.forall_mem_nil _
  | cons e es ih =>
      rw [Writer.run_cons] at h
      obtain ⟨_, d, hstep, hrest⟩ := bind_eq_ok_iff.mp h
      exact List.forall_mem_cons.mpr ⟨(step_ok hstep).1, ih hrest⟩

/-- Events that leave nothing open in a builder that was empty tell one tree, if
there are any, and the value of it is all that is in the builder. -/
theorem Builder.closed_of_run {es : List Event} {b : Builder} (hpolicy : policy ≠ .aggressive)
    (h : Writer.run es Builder.empty = .ok () b) (hscopes : b.scopes = []) :
    (es = [] ∧ b = Builder.empty) ∨ ∃ t, Tells es t ∧ b = ofRoot (t.value policy) := by
  obtain ⟨htell, hall⟩ := run_ok h
  have hall : assembleAll es Builder.empty = .ok () { b with scopes := [] } := hall []
  obtain ⟨frames, result, binary, scopes⟩ := b
  obtain rfl : scopes = [] := hscopes
  obtain ⟨ts, hts⟩ := tells_of_tell (unrefused_of_run h) htell
  cases hts with
  | nil =>
      cases h
      exact .inl ⟨rfl, rfl⟩
  | @cons es es' t ts ht hts =>
      have hplace : assembleAll es Builder.empty = .ok () (ofRoot (t.value policy)) :=
        ht.assemble hpolicy rfl
      rw [assembleAll_append hplace] at hall
      cases hts with
      | nil =>
          cases hall
          exact .inr ⟨t, (List.append_nil es).symm ▸ ht, rfl⟩
      | cons ht' hts' =>
          -- there is no room for a second root
          have hfull := ht'.assemble hpolicy (b := ofRoot (t.value policy)) rfl
          unfold assembleAll at hall hfull
          rw [List.forM_append, bind_of_error (hfull.trans rfl)] at hall
          cases hall

/-- Events that complete a root tell one tree, of which it is the value. -/
theorem Builder.tells_of_run {es : List Event} {b : Builder} {v : OwnedValue}
    (hpolicy : policy ≠ .aggressive) (h : Writer.run es Builder.empty = .ok () b)
    (hscopes : b.scopes = []) (hresult : b.result = some v) :
    ∃ t, TellsElems es [t] ∧ t.value policy = v := by
  obtain ⟨-, rfl⟩ | ⟨t, ht, rfl⟩ := closed_of_run hpolicy h hscopes
  · cases hresult
  · exact ⟨t, List.append_nil es ▸ .cons ht .nil, Option.some.inj hresult⟩

end Tellings

end MsgPack
