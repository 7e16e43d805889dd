import MsgPack.Proofs.Writer.Failure

/-!
The bookkeeping of open scopes, call by call. A call that succeeds opens a scope,
closes the innermost one, or alters it in one of few ways; a call that fails
leaves the scopes as they were. So in every scope there is no more than it
announced, and a map with an entry half done has room for the other half.

The delicate case is the value of an entry. It takes back the mark of the key
before it counts, and counting may fail. It never does: the key was announced
when there was room, and nothing has been counted in the map since, whatever
scopes were opened over it and closed again.
-/

namespace MsgPack

/-- What holds of every open scope. An announced key and a key that waits for
its value exclude each other. -/
structure Scope.Regular (f : Scope) : Prop extends f.Sound where
  apart : ¬(f.keyAnnounced = true ∧ f.keyWritten = true)

theorem Scope.regular_entered (kind : ScopeKind) (n : Nat) :
    Scope.Regular { kind, declared := n } where
  within := Nat.zero_le n
  due := by simp
  apart := by simp

namespace Scopes

/-! ### Calls -/

inductive Call where
  | key
  | element
  | enter (kind : ScopeKind) (size : Nat)
  /-- A piece of a binary. -/
  | chunk (size : Nat)
  | leave (kind : ScopeKind)
  | clear

namespace Call

def step : Call → Step Unit
  | key => announceKey
  | element => nextElement
  | enter kind size => Scopes.enter kind size
  | chunk size => appendBinary size
  | leave kind => Scopes.leave kind
  | clear => modify fun _ => []

/-- The size that a call brings along; an element counts for one. -/
def size : Call → Nat
  | enter _ size | chunk size => size
  | element => 1
  | key | leave _ | clear => 0

/-- The scopes after the call, with or without success. -/
def on (scopes : Scopes) (call : Call) : Scopes :=
  match call.step scopes with
  | .ok _ scopes' | .error _ scopes' => scopes'

end Call

/-- The scopes after some calls, the failing ones ignored. -/
def after (scopes : Scopes) (calls : List Call) : Scopes := calls.foldl Call.on scopes

def totalSize : List Call → Nat
  | [] => 0
  | call :: calls => call.size + totalSize calls

variable {f g : Scope} {outer scopes scopes' : Scopes} {call : Call} {err : Error} {limit : Nat}

/-- How a call alters the innermost scope. -/
inductive Alters : Call → Scope → Scope → Prop
  | element {f g : Scope} (h : TakesElement f g) : Alters .element f g
  | key {f : Scope} (hkind : f.kind = .map) (hkey : f.keyAnnounced = false)
      (hval : f.keyWritten = false) (hroom : f.written ≠ f.declared) :
      Alters .key f { f with keyAnnounced := true }
  | chunk {f : Scope} {n : Nat} (hkind : f.kind = .binary) (hroom : f.written + n ≤ f.declared) :
      Alters (.chunk n) f { f with written := f.written + n }

/-- Where a call leads that succeeds. -/
inductive Leads : Call → Scopes → Scopes → Prop
  | altered {call : Call} {f g : Scope} {outer : Scopes} (h : Alters call f g) :
      Leads call (f :: outer) (g :: outer)
  | outside : Leads .element [] []
  | entered (kind : ScopeKind) (n : Nat) (scopes : Scopes) :
      Leads (.enter kind n) scopes ({ kind, declared := n } :: scopes)
  | left {f : Scope} {outer : Scopes} (hfull : f.written = f.declared)
      (hkey : f.keyAnnounced = false) (hval : f.keyWritten = false) :
      Leads (.leave f.kind) (f :: outer) outer
  | cleared (scopes : Scopes) : Leads .clear scopes []

theorem leads_of_step (h : call.step scopes = .ok () scopes') : Leads call scopes scopes' := by
  cases call with
  | enter kind n =>
      cases h
      exact .entered kind n scopes
  | clear =>
      cases h
      exact .cleared scopes
  | element =>
      cases scopes with
      | nil =>
          cases h
          exact .outside
      | cons f outer =>
          obtain ⟨g, hg, rfl⟩ := nextElement_cons_ok_iff.mp h
          exact .altered (.element hg)
  | key =>
      obtain ⟨f, outer, rfl, hkind, hkey, hval, hroom, rfl⟩ := announceKey_inv h
      exact .altered (.key hkind hkey hval hroom)
  | chunk n =>
      obtain ⟨f, outer, rfl, hkind, hroom, rfl⟩ := appendBinary_inv h
      exact .altered (.chunk hkind hroom)
  | leave kind =>
      obtain ⟨f, rfl, rfl, hfull, hkey, hval⟩ := leave_ok_iff.mp h
      exact .left hfull hkey hval

/-- A call that fails leaves the scopes as they were. -/
theorem unchanged_of_error (hs : Sound scopes) (h : call.step scopes = .error err scopes') :
    scopes' = scopes := by
  cases call with
  | key => exact (announceKey_error h).1
  | element => exact (nextElement_error hs h).1
  | enter kind n => cases h
  | chunk n => exact (appendBinary_error h).1
  | leave kind => exact (leave_error h).1
  | clear => cases h

/-! ### What calls preserve -/

theorem Alters.declared_eq (h : Alters call f g) : g.declared = f.declared := by
  cases h with
  | element h => cases h <;> rfl
  | key => rfl
  | chunk => rfl

theorem Alters.regular (h : Alters call f g) (hf : f.Regular) : g.Regular := by
  cases h with
  | element h =>
      refine ⟨sound_takesElement hf.toSound h, ?_⟩
      cases h with
      | array => exact hf.apart
      | key => simp
      | value => simp
  | key hkind hkey hval hroom =>
      refine ⟨⟨hf.within, fun _ => ⟨hkind, ?_⟩⟩, by simp [hval]⟩
      exact Nat.lt_of_le_of_ne hf.within hroom
  | chunk hkind hroom =>
      refine ⟨⟨hroom, fun hdue => ?_⟩, hf.apart⟩
      -- the keys of a map are no matter of a binary
      have hmap : f.kind = .map := (hf.due hdue).1
      simp [hmap] at hkind

theorem Leads.regular (h : Leads call scopes scopes') (hs : ∀ f ∈ scopes, f.Regular) :
    ∀ f ∈ scopes', f.Regular := by
  cases h with
  | altered h =>
      rw [List.forall_mem_cons] at hs ⊢
      exact ⟨h.regular hs.1, hs.2⟩
  | outside => exact hs
  | entered kind n => exact List.forall_mem_cons.mpr ⟨Scope.regular_entered kind n, hs⟩
  | left => exact (List.forall_mem_cons.mp hs).2
  | cleared => simp

/-- What a scope announces, some call has brought along. -/
theorem Leads.declared_le (h : Leads call scopes scopes') (hs : ∀ f ∈ scopes, f.declared ≤ limit) :
    ∀ f ∈ scopes', f.declared ≤ limit + call.size := by
  cases h with
  | altered h =>
      rw [List.forall_mem_cons] at hs ⊢
      rw [h.declared_eq]
      exact ⟨by omega, fun f hf => Nat.le_add_right_of_le (hs.2 f hf)⟩
  | outside => simp
  | entered kind n =>
      refine List.forall_mem_cons.mpr ⟨Nat.le_add_left n limit, fun f hf => ?_⟩
      exact Nat.le_add_right_of_le (hs f hf)
  | left => exact (List.forall_mem_cons.mp hs).2
  | cleared => simp

/-- Each call fails and changes nothing, or succeeds. -/
theorem on_cases (call : Call) (hs : Sound scopes) :
    call.on scopes = scopes ∨ Leads call scopes (call.on scopes) := by
  unfold Call.on
  cases h : call.step scopes with
  | ok _ scopes' => exact .inr (leads_of_step h)
  | error err scopes' => exact .inl (unchanged_of_error hs h)

/-- The step of the induction below. -/
theorem on_regular (call : Call) (hs : ∀ f ∈ scopes, f.Regular) :
    ∀ f ∈ call.on scopes, f.Regular := by
  rcases on_cases call fun f hf => (hs f hf).toSound with h | h
  · rwa [h]
  · exact h.regular hs

theorem after_regular (calls : List Call) (hs : ∀ f ∈ scopes, f.Regular) :
    ∀ f ∈ after scopes calls, f.Regular := by
  induction calls generalizing scopes with
  | nil => exact hs
  | cons call calls ih => exact ih (on_regular call hs)

theorem on_declared_le (call : Call) (hs : ∀ f ∈ scopes, f.Regular)
    (hle : ∀ f ∈ scopes, f.declared ≤ limit) :
    ∀ f ∈ call.on scopes, f.declared ≤ limit + call.size := by
  rcases on_cases call fun f hf => (hs f hf).toSound with h | h
  · rw [h]
    exact fun f hf => Nat.le_add_right_of_le (hle f hf)
  · exact h.declared_le hle

theorem after_declared_le (calls : List Call) (hs : ∀ f ∈ scopes, f.Regular)
    (hle : ∀ f ∈ scopes, f.declared ≤ limit) :
    ∀ f ∈ after scopes calls, f.declared ≤ limit + totalSize calls := by
  induction calls generalizing scopes limit with
  | nil => exact hle
  | cons call calls ih =>
      rw [totalSize, ← Nat.add_assoc]
      exact ih (on_regular call hs) (on_declared_le call hs hle)

/-! ### What follows for single calls -/

/-- The value of an entry is counted, for its key was announced when there was
room. -/
theorem nextElement_of_due (hf : f.Sound) (hkey : f.keyAnnounced = false)
    (hval : f.keyWritten = true) :
    nextElement (f :: outer) =
      .ok () ({ f with keyWritten := false, written := f.written + 1 } :: outer) := by
  obtain ⟨hkind, hroom⟩ := hf.due (.inr hval)
  exact nextElement_cons_ok_iff.mpr ⟨_, .value hkind hkey hval hroom, rfl⟩

/-- Let any calls be made, the failing ones ignored. Every scope then holds no
more than it announced; an announced key and a key that waits for its value
exclude each other, are found in maps only, and have room there. Whatever call
is made next, it leaves the scopes as they are if it fails. The value of an entry
is taken, without fail. A scope is closed only if it is the innermost one, is of
the kind asked for and holds what it announced, with no entry half done. And as
long as the sizes that were brought along sum up to less than 2 ^ 64, each sum
that counting forms does so too. -/
theorem regular_after (calls : List Call) :
    let scopes := after [] calls
    (∀ f ∈ scopes, f.written ≤ f.declared ∧
      ¬(f.keyAnnounced = true ∧ f.keyWritten = true) ∧
      (f.keyAnnounced = true ∨ f.keyWritten = true → f.kind = .map ∧ f.written < f.declared)) ∧
    (∀ call err scopes', Call.step call scopes = .error err scopes' → scopes' = scopes) ∧
    (∀ f outer, scopes = f :: outer → f.kind = .map → f.keyAnnounced = false →
      f.keyWritten = true → nextElement scopes =
        .ok () ({ f with keyWritten := false, written := f.written + 1 } :: outer)) ∧
    (∀ kind scopes', leave kind scopes = .ok () scopes' ↔
      ∃ f, scopes = f :: scopes' ∧ f.kind = kind ∧ f.written = f.declared ∧
        f.keyAnnounced = false ∧ f.keyWritten = false) ∧
    ∀ call, totalSize calls + Call.size call < 2 ^ 64 →
      ∀ f ∈ scopes, f.declared < 2 ^ 64 ∧ f.written + call.size < 2 ^ 64 := by
  intro scopes
  have hregular : ∀ f ∈ scopes, f.Regular := after_regular calls (by simp)
  have hdeclared : ∀ f ∈ scopes, f.declared ≤ 0 + totalSize calls :=
    after_declared_le calls (by simp) (by simp)
  refine ⟨?_, ?_, ?_, ?_, ?_⟩
  · intro f hf
    have hregular := hregular f hf
    exact ⟨hregular.within, hregular.apart, hregular.due⟩
  · intro call err scopes' h
    exact unchanged_of_error (fun f hf => (hregular f hf).toSound) h
  · intro f outer hscopes _ hkey hval
    have hf : f ∈ scopes := by simp [hscopes]
    rw [hscopes]
    exact nextElement_of_due (hregular f hf).toSound hkey hval
  · intro kind scopes'
    exact leave_ok_iff
  · intro call hsize f hf
    have hle := hdeclared f hf
    have hwithin := (hregular f hf).within
    omega

/-- The key of an entry is an array, and the value is counted after it. -/
theorem regular_after_nested :
    let calls := [.enter .map 1, .key, .element, .enter .array 0, .leave .array]
    after [] calls = [{ kind := .map, declared := 1, keyWritten := true }] ∧
      nextElement (after [] calls) = .ok () [{ kind := .map, declared := 1, written := 1 }] := by
  intro calls
  have hcalls : after [] calls = [{ kind := .map, declared := 1, keyWritten := true }] := rfl
  obtain ⟨-, -, hvalue, -⟩ := regular_after calls
  exact ⟨hcalls, hvalue _ _ hcalls rfl rfl rfl⟩

end Scopes

end MsgPack
