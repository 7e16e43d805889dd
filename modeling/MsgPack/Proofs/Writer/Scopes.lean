import MsgPack.Proofs.Step
import MsgPack.Writer.Scope

/-!
The bookkeeping steps by their successes: what has to hold of the innermost
scope, and what becomes of it.
-/

namespace MsgPack.Scopes

variable {scopes scopes' : Scopes}

theorem innermost_cons (call : ScopedCall) (f : Scope) (outer : Scopes) :
    innermost call (f :: outer) = .ok f (f :: outer) := rfl

theorem count_cons (g f : Scope) (n : Nat) (outer : Scopes) :
    count g n (f :: outer) =
      if g.declared < g.written + n then
        .error (.writerState (.overfilled (g.written + n) g.declared)) (f :: outer)
      else .ok () ({ g with written := g.written + n } :: outer) := by
  rw [count]
  split <;> rfl

/-! ### Elements -/

theorem nextElement_array {f : Scope} (hf : f.kind = .array) (outer : Scopes) :
    nextElement (f :: outer) = count f 1 (f :: outer) := by
  rw [nextElement]
  rw [bind_of_ok (get_apply _)]
  simp only [hf]

theorem nextElement_binary {f : Scope} (hf : f.kind = .binary) (outer : Scopes) :
    nextElement (f :: outer) = .error (.writerState .elementInBinary) (f :: outer) := by
  rw [nextElement]
  rw [bind_of_ok (get_apply _)]
  simp only [hf]
  rfl

theorem nextElement_key {f : Scope} (hf : f.kind = .map) (hkey : f.keyAnnounced = true)
    (outer : Scopes) :
    nextElement (f :: outer) =
      .ok () ({ f with keyAnnounced := false, keyWritten := true } :: outer) := by
  rw [nextElement]
  rw [bind_of_ok (get_apply _)]
  simp only [hf, hkey, if_true]
  rfl

theorem nextElement_value {f : Scope} (hf : f.kind = .map) (hkey : f.keyAnnounced = false)
    (hval : f.keyWritten = true) (outer : Scopes) :
    nextElement (f :: outer) =
      count { f with keyWritten := false } 1 ({ f with keyWritten := false } :: outer) := by
  rw [nextElement]
  rw [bind_of_ok (get_apply _)]
  simp only [hf, hkey, hval, if_true, Bool.false_eq_true, if_false]
  rfl

theorem nextElement_unannounced {f : Scope} (hf : f.kind = .map) (hkey : f.keyAnnounced = false)
    (hval : f.keyWritten = false) (outer : Scopes) :
    nextElement (f :: outer) = .error (.writerState .valueWithoutKey) (f :: outer) := by
  rw [nextElement]
  rw [bind_of_ok (get_apply _)]
  simp only [hf, hkey, hval, Bool.false_eq_true, if_false]
  rfl

/-- The ways in which a scope takes an element. -/
inductive TakesElement : Scope → Scope → Prop
  | array {f : Scope} (hf : f.kind = .array) (hroom : f.written < f.declared) :
      TakesElement f { f with written := f.written + 1 }
  | key {f : Scope} (hf : f.kind = .map) (hkey : f.keyAnnounced = true) :
      TakesElement f { f with keyAnnounced := false, keyWritten := true }
  | value {f : Scope} (hf : f.kind = .map) (hkey : f.keyAnnounced = false)
      (hval : f.keyWritten = true) (hroom : f.written < f.declared) :
      TakesElement f { f with keyWritten := false, written := f.written + 1 }

theorem nextElement_cons_ok_iff {f : Scope} {outer : Scopes} :
    nextElement (f :: outer) = .ok () scopes' ↔ ∃ g, TakesElement f g ∧ scopes' = g :: outer := by
  refine ⟨?_, ?_⟩
  · intro h
    cases hf : f.kind with
    | array =>
        rw [nextElement_array hf, count_cons] at h
        split at h <;> cases h
        exact ⟨_, .array hf (by omega), rfl⟩
    | binary =>
        rw [nextElement_binary hf] at h
        cases h
    | map =>
        cases hkey : f.keyAnnounced with
        | true =>
            rw [nextElement_key hf hkey] at h
            cases h
            exact ⟨_, .key hf hkey, rfl⟩
        | false =>
            cases hval : f.keyWritten with
            | true =>
                rw [nextElement_value hf hkey hval, count_cons] at h
                split at h <;> cases h
                exact ⟨_, .value hf hkey hval (by dsimp only at *; omega), rfl⟩
            | false =>
                rw [nextElement_unannounced hf hkey hval] at h
                cases h
  · rintro ⟨g, hg, rfl⟩
    cases hg with
    | array hf hroom => rw [nextElement_array hf, count_cons, if_neg (by omega)]
    | key hf hkey => rw [nextElement_key hf hkey]
    | value hf hkey hval hroom =>
        rw [nextElement_value hf hkey hval, count_cons, if_neg (by dsimp only; omega)]

theorem length_of_nextElement (h : nextElement scopes = .ok () scopes') :
    scopes'.length = scopes.length := by
  cases scopes with
  | nil =>
      cases h
      rfl
  | cons f outer =>
      obtain ⟨g, -, rfl⟩ := nextElement_cons_ok_iff.mp h
      rfl

/-! ### Chunks, keys and ends -/

theorem appendBinary_cons (n : Nat) (f : Scope) (outer : Scopes) :
    appendBinary n (f :: outer) =
      if f.kind ≠ .binary then .error (.writerState .chunkOutsideBinary) (f :: outer)
      else count f n (f :: outer) := by
  rw [appendBinary]
  rw [bind_of_ok (innermost_cons ..)]
  split <;> rfl

theorem appendBinary_cons_ok_iff {f : Scope} {outer : Scopes} {n : Nat} :
    appendBinary n (f :: outer) = .ok () scopes' ↔
      f.kind = .binary ∧ f.written + n ≤ f.declared ∧
        scopes' = { f with written := f.written + n } :: outer := by
  rw [appendBinary_cons, count_cons]
  by_cases hf : f.kind = .binary
  · rw [if_neg (not_not_intro hf)]
    split
    · next h => simp [hf, Nat.not_le.mpr h]
    · next h => simp [hf, Nat.not_lt.mp h, eq_comm]
  · simp [hf]

theorem appendBinary_inv {n : Nat} (h : appendBinary n scopes = .ok () scopes') :
    ∃ f outer, scopes = f :: outer ∧ f.kind = .binary ∧ f.written + n ≤ f.declared ∧
      scopes' = { f with written := f.written + n } :: outer := by
  cases scopes with
  | nil => cases h
  | cons f outer => exact ⟨f, outer, rfl, appendBinary_cons_ok_iff.mp h⟩

theorem announceKey_cons (f : Scope) (outer : Scopes) :
    announceKey (f :: outer) =
      if f.kind ≠ .map then .error (.writerState .keyOutsideMap) (f :: outer)
      else if f.keyAnnounced || f.keyWritten then .error (.writerState .keyPending) (f :: outer)
      else if f.written = f.declared then
        .error (.writerState (.mapFull f.declared)) (f :: outer)
      else .ok () ({ f with keyAnnounced := true } :: outer) := by
  rw [announceKey]
  rw [bind_of_ok (innermost_cons ..)]
  split
  · rfl
  · split
    · rfl
    · split <;> rfl

theorem announceKey_cons_ok_iff {f : Scope} {outer : Scopes} :
    announceKey (f :: outer) = .ok () scopes' ↔
      f.kind = .map ∧ f.keyAnnounced = false ∧ f.keyWritten = false ∧
        f.written ≠ f.declared ∧ scopes' = { f with keyAnnounced := true } :: outer := by
  rw [announceKey_cons]
  by_cases hf : f.kind = .map
  · cases hkey : f.keyAnnounced <;> cases hval : f.keyWritten <;>
      by_cases hfull : f.written = f.declared <;> simp [hf, hfull, eq_comm]
  · simp [hf]

theorem announceKey_inv (h : announceKey scopes = .ok () scopes') :
    ∃ f outer, scopes = f :: outer ∧ f.kind = .map ∧ f.keyAnnounced = false ∧
      f.keyWritten = false ∧ f.written ≠ f.declared ∧
      scopes' = { f with keyAnnounced := true } :: outer := by
  cases scopes with
  | nil => cases h
  | cons f outer => exact ⟨f, outer, rfl, announceKey_cons_ok_iff.mp h⟩

theorem leave_cons (kind : ScopeKind) (f : Scope) (outer : Scopes) :
    leave kind (f :: outer) =
      if f.kind ≠ kind then .error (.writerState .otherScope) (f :: outer)
      else if f.written ≠ f.declared || f.keyAnnounced || f.keyWritten then
        .error (.writerState (.incompleteScope f.written f.declared)) (f :: outer)
      else .ok () outer := by
  rw [leave]
  rw [bind_of_ok (innermost_cons ..)]
  split
  · rfl
  · split <;> rfl

theorem leave_cons_ok_iff {kind : ScopeKind} {f : Scope} {outer : Scopes} :
    leave kind (f :: outer) = .ok () scopes' ↔
      f.kind = kind ∧ f.written = f.declared ∧ f.keyAnnounced = false ∧ f.keyWritten = false ∧
        scopes' = outer := by
  rw [leave_cons]
  by_cases hf : f.kind = kind
  · cases hkey : f.keyAnnounced <;> cases hval : f.keyWritten <;>
      by_cases hfull : f.written = f.declared <;> simp [hf, hfull, eq_comm]
  · simp [hf]

theorem leave_ok_iff {kind : ScopeKind} :
    leave kind scopes = .ok () scopes' ↔
      ∃ f, scopes = f :: scopes' ∧ f.kind = kind ∧ f.written = f.declared ∧
        f.keyAnnounced = false ∧ f.keyWritten = false := by
  constructor
  · intro h
    cases scopes with
    | nil => cases h
    | cons f outer =>
        obtain ⟨hkind, hfull, hkey, hval, rfl⟩ := leave_cons_ok_iff.mp h
        exact ⟨f, rfl, hkind, hfull, hkey, hval⟩
  · rintro ⟨f, rfl, hkind, hfull, hkey, hval⟩
    exact leave_cons_ok_iff.mpr ⟨hkind, hfull, hkey, hval, rfl⟩

end MsgPack.Scopes
