import MsgPack.Proofs.Writer.Accounting
import MsgPack.Proofs.Writer.Scopes
import MsgPack.Proofs.Writer.Tree

/-!
The bookkeeping of scopes accepts exactly the tellings of trees. Forward, each
tree counts as one element of the scope around it. Backward, a sequence of
events that ends with no more scopes than it began with tells one tree, or
fills the innermost scope and closes it; the two are found together, by
induction on the number of events.
-/

namespace MsgPack

namespace Scopes

/-- What a sequence of events does to the scopes. -/
def tell (es : List Event) : Scopes.Step Unit := forM es Event.act

@[simp] theorem tell_nil (scopes : Scopes) : tell [] scopes = .ok () scopes := rfl

theorem tell_cons (e : Event) (es : List Event) : tell (e :: es) = e.act >>= fun _ => tell es := by
  simp [tell]

theorem tell_append (es es' : List Event) :
    tell (es ++ es') = tell es >>= fun _ => tell es' := by
  simp [tell, List.forM_append]

theorem act_apply (e : Event) (scopes : Scopes) :
    e.act scopes =
      match e.account scopes with
      | .ok _ scopes => .ok () (e.opens?.toList ++ scopes)
      | .error err scopes => .error err scopes := by
  rw [Event.act]
  rw [bind_apply]
  cases e.account scopes <;> rfl

theorem act_ok_iff {e : Event} {scopes scopes' : Scopes} :
    e.act scopes = .ok () scopes' ↔
      ∃ inner, e.account scopes = .ok () inner ∧ scopes' = e.opens?.toList ++ inner := by
  rw [act_apply]
  cases e.account scopes <;> simp [eq_comm]

theorem tell_cons_ok_iff {e : Event} {es : List Event} {scopes scopes' : Scopes} :
    tell (e :: es) scopes = .ok () scopes' ↔
      ∃ inner, e.account scopes = .ok () inner ∧
        tell es (e.opens?.toList ++ inner) = .ok () scopes' := by
  rw [tell_cons, bind_eq_ok_iff]
  refine ⟨?_, ?_⟩
  · rintro ⟨_, _, hact, hrest⟩
    obtain ⟨inner, haccount, rfl⟩ := act_ok_iff.mp hact
    exact ⟨inner, haccount, hrest⟩
  · rintro ⟨inner, haccount, hrest⟩
    exact ⟨(), _, act_ok_iff.mpr ⟨inner, haccount, rfl⟩, hrest⟩

end Scopes

open Scopes

/-! ### Tellings are accepted -/

theorem tell_scalar {e : Event} {scopes scopes' : Scopes}
    (h : e.account scopes = .ok () scopes') (hopens : e.opens? = none) :
    tell [e] scopes = .ok () scopes' :=
  tell_cons_ok_iff.mpr ⟨scopes', h, by rw [hopens]; rfl⟩

theorem tell_chunks (chunks : List Bytes) {f : Scope} (hf : f.kind = .binary) (outer : Scopes)
    (hroom : f.written + chunks.flatten.length ≤ f.declared) :
    tell (chunks.map .chunk) (f :: outer) =
      .ok () ({ f with written := f.written + chunks.flatten.length } :: outer) := by
  induction chunks generalizing f with
  | nil => rfl
  | cons c chunks ih =>
      rw [List.flatten_cons, List.length_append] at hroom ⊢
      rw [List.map_cons, tell_cons_ok_iff]
      refine ⟨_, appendBinary_cons_ok_iff.mpr ⟨hf, by omega, rfl⟩, ?_⟩
      rw [← Nat.add_assoc]
      exact ih (f := { f with written := f.written + c.length }) hf (by dsimp only; omega)

/-- Between the opening and the closing event of a container its scope is
filled. -/
theorem tell_container {first last : Event} {es : List Event} {kind : ScopeKind} {n : Nat}
    {scopes scopes' : Scopes} (hfirst : first.account = nextElement)
    (hopens : first.opens? = some { kind, declared := n }) (hlast : last.account = leave kind)
    (hcloses : last.opens? = none) (h : nextElement scopes = .ok () scopes')
    (hes : tell es ({ kind, declared := n } :: scopes') =
      .ok () ({ kind, declared := n, written := n } :: scopes')) :
    tell (first :: (es ++ [last])) scopes = .ok () scopes' := by
  rw [tell_cons_ok_iff]
  refine ⟨scopes', by rw [hfirst, h], ?_⟩
  rw [hopens, tell_append]
  refine (bind_of_ok hes).trans (tell_scalar ?_ hcloses)
  rw [hlast, leave_cons_ok_iff]
  exact ⟨rfl, rfl, rfl, rfl, rfl⟩

mutual

/-- A tree counts as one element. -/
theorem Tells.tell {es : List Event} {t : Tree} (h : Tells es t) {scopes scopes' : Scopes}
    (hnext : nextElement scopes = .ok () scopes') : tell es scopes = .ok () scopes' := by
  cases h with
  | nil => exact tell_scalar hnext rfl
  | bool b => exact tell_scalar hnext rfl
  | int t i => exact tell_scalar hnext rfl
  | float p x => exact tell_scalar hnext rfl
  | text bs => exact tell_scalar hnext rfl
  | char hcp => exact tell_scalar hnext rfl
  | extension e => exact tell_scalar hnext rfl
  | binary chunks =>
      apply tell_container rfl rfl rfl rfl hnext
      rw [tell_chunks chunks rfl _ (by simp)]
      simp
  | @array es elems hs =>
      apply tell_container rfl rfl rfl rfl hnext
      have hfill := TellsElems.tell hs
        (fun n => ({ kind := .array, declared := elems.length, written := n } : Scope) :: scopes')
        fun n hn => nextElement_cons_ok_iff.mpr ⟨_, .array rfl hn, rfl⟩
      exact hfill
  | @map es entries hs =>
      apply tell_container rfl rfl rfl rfl hnext
      have hfill := TellsEntries.tell hs entries.length 0 scopes' (by simp)
      rwa [Nat.zero_add] at hfill
termination_by sizeOf t

/-- Trees one after another, given how the scopes count them. -/
theorem TellsElems.tell {es : List Event} {ts : List Tree} (h : TellsElems es ts)
    (counted : Nat → Scopes)
    (hnext : ∀ n < ts.length, nextElement (counted n) = .ok () (counted (n + 1))) :
    tell es (counted 0) = .ok () (counted ts.length) := by
  cases h with
  | nil => rfl
  | cons ht hts =>
      rw [tell_append]
      refine (bind_of_ok (Tells.tell ht (hnext 0 (by simp)))).trans ?_
      have hrest := TellsElems.tell hts (fun n => counted (n + 1)) fun n hn =>
        hnext (n + 1) (by simpa using hn)
      exact hrest
termination_by sizeOf ts

theorem TellsEntries.tell {es : List Event} {entries : List (Tree × Tree)}
    (h : TellsEntries es entries) (declared written : Nat) (outer : Scopes)
    (hroom : written + entries.length ≤ declared) :
    tell es ({ kind := .map, declared, written } :: outer) =
      .ok () ({ kind := .map, declared, written := written + entries.length } :: outer) := by
  cases h with
  | nil => rfl
  | @cons ks vs es k v entries hk hv hs =>
      rw [List.length_cons] at hroom ⊢
      have hannounce : announceKey ({ kind := .map, declared, written } :: outer) =
          .ok () ({ kind := .map, declared, written, keyAnnounced := true } :: outer) :=
        announceKey_cons_ok_iff.mpr ⟨rfl, rfl, rfl, by dsimp only; omega, rfl⟩
      rw [tell_cons_ok_iff]
      refine ⟨_, hannounce, ?_⟩
      have hkey : nextElement ({ kind := .map, declared, written, keyAnnounced := true } :: outer) =
          .ok () ({ kind := .map, declared, written, keyWritten := true } :: outer) :=
        nextElement_cons_ok_iff.mpr ⟨_, .key rfl rfl, rfl⟩
      have hval : nextElement ({ kind := .map, declared, written, keyWritten := true } :: outer) =
          .ok () ({ kind := .map, declared, written := written + 1 } :: outer) :=
        nextElement_cons_ok_iff.mpr ⟨_, .value rfl rfl rfl (by dsimp only; omega), rfl⟩
      have hrest := TellsEntries.tell hs declared (written + 1) outer (by omega)
      rw [tell_append]
      refine (bind_of_ok (Tells.tell hk hkey)).trans ?_
      rw [tell_append]
      refine (bind_of_ok (Tells.tell hv hval)).trans ?_
      rw [show written + (entries.length + 1) = written + 1 + entries.length by omega]
      exact hrest
termination_by sizeOf entries

end

/-! ### What is accepted is a telling -/

/-- The events that begin a tree. -/
def Event.isElement : Event → Bool
  | .chunk _ | .endBinary | .endArray | .endMap | .key => false
  | _ => true

theorem account_of_isElement {e : Event} (h : e.isElement = true) : e.account = nextElement := by
  cases e <;> first | rfl | cases h

/-- In a sequence of fewer than `k` events, whatever begins with the beginning
of a tree and closes what it opens begins with the whole tree. -/
def TreesSplit (k : Nat) : Prop :=
  ∀ {e : Event} {es : List Event} {scopes scopes' : Scopes}, es.length < k →
    e.isElement = true → (∀ x ∈ e :: es, x.refusal? = none) →
    tell (e :: es) scopes = .ok () scopes' → scopes'.length ≤ scopes.length →
    ∃ told rest t inner, e :: es = told ++ rest ∧ rest.length ≤ es.length ∧ Tells told t ∧
      nextElement scopes = .ok () inner ∧ tell rest inner = .ok () scopes'

/-- What is left of a sequence of events after one that closes the innermost
scope `f`, which has been filled by `inside` until then. -/
def Closes (f : Scope) (outer scopes' : Scopes) (es : List Event) (last : Event)
    (inside : List Event → Nat → Prop) : Prop :=
  ∃ filling rest n, es = filling ++ last :: rest ∧ rest.length < es.length ∧ inside filling n ∧
    f.written + n = f.declared ∧ tell rest outer = .ok () scopes'

section Split

variable {k : Nat} {e : Event} {es : List Event} {f : Scope} {inner outer scopes' : Scopes}

/-! Inside a scope the events that begin no tree are few, and settle how the
filling of the scope goes on. -/

theorem inside_binary (hf : f.kind = .binary) (h : e.account (f :: outer) = .ok () inner) :
    (∃ c, e = .chunk c ∧ inner = { f with written := f.written + c.length } :: outer) ∨
      e = .endBinary ∧ f.written = f.declared ∧ inner = outer := by
  cases e with
  | chunk c =>
      obtain ⟨-, -, rfl⟩ := appendBinary_cons_ok_iff.mp h
      exact .inl ⟨c, rfl, rfl⟩
  | endBinary =>
      obtain ⟨-, hfull, -, -, rfl⟩ := leave_cons_ok_iff.mp h
      exact .inr ⟨rfl, hfull, rfl⟩
  | endArray => exact nomatch hf.symm.trans (leave_cons_ok_iff.mp h).1
  | endMap => exact nomatch hf.symm.trans (leave_cons_ok_iff.mp h).1
  | key => exact nomatch hf.symm.trans (announceKey_cons_ok_iff.mp h).1
  | _ =>
      rw [account_of_isElement rfl, nextElement_binary hf] at h
      cases h

theorem inside_array (he : e.isElement = false) (hf : f.kind = .array)
    (h : e.account (f :: outer) = .ok () inner) :
    e = .endArray ∧ f.written = f.declared ∧ inner = outer := by
  cases e with
  | endArray =>
      obtain ⟨-, hfull, -, -, rfl⟩ := leave_cons_ok_iff.mp h
      exact ⟨rfl, hfull, rfl⟩
  | chunk c => exact nomatch hf.symm.trans (appendBinary_cons_ok_iff.mp h).1
  | endBinary => exact nomatch hf.symm.trans (leave_cons_ok_iff.mp h).1
  | endMap => exact nomatch hf.symm.trans (leave_cons_ok_iff.mp h).1
  | key => exact nomatch hf.symm.trans (announceKey_cons_ok_iff.mp h).1
  | _ => cases he

theorem inside_map (he : e.isElement = false) (hf : f.kind = .map)
    (h : e.account (f :: outer) = .ok () inner) :
    f.keyAnnounced = false ∧ f.keyWritten = false ∧
      (e = .key ∧ inner = { f with keyAnnounced := true } :: outer ∨
        e = .endMap ∧ f.written = f.declared ∧ inner = outer) := by
  cases e with
  | key =>
      obtain ⟨-, hkey, hval, -, rfl⟩ := announceKey_cons_ok_iff.mp h
      exact ⟨hkey, hval, .inl ⟨rfl, rfl⟩⟩
  | endMap =>
      obtain ⟨-, hfull, hkey, hval, rfl⟩ := leave_cons_ok_iff.mp h
      exact ⟨hkey, hval, .inr ⟨rfl, hfull, rfl⟩⟩
  | chunk c => exact nomatch hf.symm.trans (appendBinary_cons_ok_iff.mp h).1
  | endBinary => exact nomatch hf.symm.trans (leave_cons_ok_iff.mp h).1
  | endArray => exact nomatch hf.symm.trans (leave_cons_ok_iff.mp h).1
  | _ => cases he

/-! The three kinds of scopes, each with what fills it. -/

theorem split_binary (hf : f.kind = .binary) (h : tell es (f :: outer) = .ok () scopes')
    (hlen : scopes'.length ≤ outer.length) :
    Closes f outer scopes' es .endBinary fun filling n =>
      ∃ chunks : List Bytes, filling = chunks.map .chunk ∧ n = chunks.flatten.length := by
  induction es generalizing f with
  | nil =>
      cases h
      exact absurd hlen (by simp)
  | cons e es ih =>
      obtain ⟨inner, haccount, hrest⟩ := tell_cons_ok_iff.mp h
      rcases inside_binary hf haccount with ⟨c, rfl, rfl⟩ | ⟨rfl, hfull, rfl⟩
      · obtain ⟨filling, rest, n, rfl, hlt, ⟨chunks, rfl, rfl⟩, hfull, hclosed⟩ :=
          ih (f := { f with written := f.written + c.length }) hf hrest
        refine ⟨.chunk c :: chunks.map .chunk, rest, c.length + chunks.flatten.length, rfl,
          Nat.lt_succ_of_lt hlt, ⟨c :: chunks, rfl, by simp⟩, ?_, hclosed⟩
        rw [← hfull, ← Nat.add_assoc]
      · exact ⟨[], es, 0, rfl, Nat.lt_succ_self _, ⟨[], rfl, rfl⟩, hfull, hrest⟩

theorem split_array (hsplit : TreesSplit k) (hk : es.length ≤ k)
    (hes : ∀ x ∈ es, x.refusal? = none) (hf : f.kind = .array)
    (h : tell es (f :: outer) = .ok () scopes') (hlen : scopes'.length ≤ outer.length) :
    Closes f outer scopes' es .endArray fun filling n =>
      ∃ elems, TellsElems filling elems ∧ n = elems.length := by
  -- by induction on the number of events: a tree may take any number of them
  induction hn : es.length using Nat.strongRecOn generalizing es f with
  | ind n ih =>
      subst hn
      cases es with
      | nil =>
          cases h
          exact absurd hlen (by simp)
      | cons e es =>
          rw [List.length_cons] at hk ih
          cases helem : e.isElement with
          | true =>
              obtain ⟨told, rest, t, inner, heq, hle, ht, hnext, hrest⟩ :=
                hsplit hk helem hes h (Nat.le_succ_of_le hlen)
              obtain ⟨g, hg, rfl⟩ := nextElement_cons_ok_iff.mp hnext
              cases hg with
              | array _ hroom =>
                  -- a tree is split off in front, and fewer events fill what is left of the scope
                  have hsub : ∀ x ∈ rest, x.refusal? = none := fun x hx =>
                    hes x (heq ▸ List.mem_append_right told hx)
                  obtain ⟨filling, rest', n, rfl, hlt, ⟨elems, helems, rfl⟩, hfull, hclosed⟩ :=
                    ih rest.length (by omega) (f := { f with written := f.written + 1 })
                      (by omega) hsub hf hrest rfl
                  refine ⟨told ++ filling, rest', elems.length + 1, ?_, ?_,
                    ⟨t :: elems, .cons ht helems, rfl⟩, ?_, hclosed⟩
                  · rw [heq, List.append_assoc]
                  · rw [List.length_cons]
                    omega
                  · dsimp only at hfull
                    omega
              | key hmap => exact nomatch hf.symm.trans hmap
              | value hmap => exact nomatch hf.symm.trans hmap
          | false =>
              obtain ⟨inner, haccount, hrest⟩ := tell_cons_ok_iff.mp h
              obtain ⟨rfl, hfull, rfl⟩ := inside_array helem hf haccount
              exact ⟨[], es, 0, rfl, Nat.lt_succ_self _, ⟨[], .nil, rfl⟩, hfull, hrest⟩

/-- A key or a value that is due in a map. -/
theorem split_due (hsplit : TreesSplit k) (hk : es.length ≤ k)
    (hes : ∀ x ∈ es, x.refusal? = none) (hf : f.kind = .map)
    (hdue : (f.keyAnnounced || f.keyWritten) = true)
    (h : tell es (f :: outer) = .ok () scopes') (hlen : scopes'.length ≤ outer.length) :
    ∃ told rest t g, es = told ++ rest ∧ rest.length < es.length ∧ Tells told t ∧
      TakesElement f g ∧ tell rest (g :: outer) = .ok () scopes' := by
  cases es with
  | nil =>
      cases h
      exact absurd hlen (by simp)
  | cons e es =>
      cases helem : e.isElement with
      | true =>
          obtain ⟨told, rest, t, inner, heq, hle, ht, hnext, hrest⟩ :=
            hsplit hk helem hes h (Nat.le_succ_of_le hlen)
          obtain ⟨g, hg, rfl⟩ := nextElement_cons_ok_iff.mp hnext
          exact ⟨told, rest, t, g, heq, Nat.lt_succ_of_le hle, ht, hg, hrest⟩
      | false =>
          obtain ⟨inner, haccount, -⟩ := tell_cons_ok_iff.mp h
          obtain ⟨hkey, hval, -⟩ := inside_map helem hf haccount
          rw [hkey, hval] at hdue
          cases hdue

theorem split_map (hsplit : TreesSplit k) (hk : es.length ≤ k)
    (hes : ∀ x ∈ es, x.refusal? = none) (hf : f.kind = .map) (hkey : f.keyAnnounced = false)
    (hval : f.keyWritten = false) (h : tell es (f :: outer) = .ok () scopes')
    (hlen : scopes'.length ≤ outer.length) :
    Closes f outer scopes' es .endMap fun filling n =>
      ∃ entries, TellsEntries filling entries ∧ n = entries.length := by
  induction hn : es.length using Nat.strongRecOn generalizing es f with
  | ind n ih =>
      subst hn
      cases es with
      | nil =>
          cases h
          exact absurd hlen (by simp)
      | cons e es =>
          rw [List.length_cons] at hk ih
          obtain ⟨inner, haccount, hrest⟩ := tell_cons_ok_iff.mp h
          cases helem : e.isElement with
          | true =>
              rw [account_of_isElement helem, nextElement_unannounced hf hkey hval] at haccount
              cases haccount
          | false =>
              rcases inside_map helem hf haccount with ⟨-, -, ⟨rfl, rfl⟩ | ⟨rfl, hfull, rfl⟩⟩
              -- an entry: the key that was announced, the value that is due then, and the scope
              -- with one entry more
              · obtain ⟨ks, rest, key, g, rfl, hlt, hks, hg, hrest⟩ := split_due
                  (f := { f with keyAnnounced := true }) hsplit (by omega)
                  (fun x hx => hes x (List.mem_cons_of_mem _ hx)) hf (by simp) hrest hlen
                rw [List.length_append] at hk ih hlt
                cases hg with
                | array hkind => exact nomatch hf.symm.trans hkind
                | value _ hno => cases hno
                | key =>
                    obtain ⟨vs, rest', val, g, rfl, hlt', hvs, hg, hrest⟩ := split_due
                      (f := { f with keyAnnounced := false, keyWritten := true }) hsplit
                      (by omega)
                      (fun x hx => hes x (List.mem_cons_of_mem _ (List.mem_append_right _ hx))) hf
                      (by simp) hrest hlen
                    rw [List.length_append] at hk ih hlt hlt'
                    cases hg with
                    | array hkind => exact nomatch hf.symm.trans hkind
                    | key _ hno => cases hno
                    | value _ _ _ hroom =>
                        obtain ⟨filling, rest, n, rfl, hlt'', ⟨entries, hentries, rfl⟩, hfull,
                          hclosed⟩ := ih rest'.length (by omega)
                            (f := { f with
                              keyAnnounced := false, keyWritten := false,
                              written := f.written + 1 })
                            (by omega)
                            (fun x hx => hes x (List.mem_cons_of_mem _ (List.mem_append_right _
                              (List.mem_append_right _ hx)))) hf rfl rfl hrest rfl
                        refine ⟨.key :: (ks ++ (vs ++ filling)), rest, entries.length + 1, ?_, ?_,
                          ⟨(key, val) :: entries, .cons hks hvs hentries, rfl⟩, ?_, hclosed⟩
                        · simp only [List.cons_append, List.append_assoc]
                        · simp only [List.length_cons, List.length_append] at hlt'' ⊢
                          omega
                        · dsimp only at hfull
                          omega
              · exact ⟨[], es, 0, rfl, Nat.lt_succ_self _, ⟨[], .nil, rfl⟩, hfull, hrest⟩

end Split

theorem treesSplit (k : Nat) : TreesSplit k := by
  induction k with
  | zero => exact fun hlt => absurd hlt (Nat.not_lt_zero _)
  | succ k ih =>
      intro e es scopes scopes' hlt helem hes h hlen
      have hk : es.length ≤ k := Nat.le_of_lt_succ hlt
      have hrefusal := hes e List.mem_cons_self
      have hes' : ∀ x ∈ es, x.refusal? = none := fun x hx => hes x (List.mem_cons_of_mem _ hx)
      obtain ⟨inner, haccount, hrest⟩ := tell_cons_ok_iff.mp h
      rw [account_of_isElement helem] at haccount
      -- a scalar is a tree by itself; what a container opens is filled by fewer events, whose
      -- trees split by induction
      rw [← length_of_nextElement haccount] at hlen
      cases e with
      | nil => exact ⟨[.nil], es, _, inner, rfl, Nat.le_refl _, .nil, haccount, hrest⟩
      | bool b => exact ⟨[.bool b], es, _, inner, rfl, Nat.le_refl _, .bool b, haccount, hrest⟩
      | int t i => exact ⟨[.int t i], es, _, inner, rfl, Nat.le_refl _, .int t i, haccount, hrest⟩
      | float p x =>
          exact ⟨[.float p x], es, _, inner, rfl, Nat.le_refl _, .float p x, haccount, hrest⟩
      | char cp =>
          cases hcp : Utf8.encode? cp with
          | none => simp [Event.refusal?, hcp] at hrefusal
          | some bs =>
              exact ⟨[.char cp], es, _, inner, rfl, Nat.le_refl _, .char hcp, haccount, hrest⟩
      | text bs => exact ⟨[.text bs], es, _, inner, rfl, Nat.le_refl _, .text bs, haccount, hrest⟩
      | extension x =>
          exact ⟨[.extension x], es, _, inner, rfl, Nat.le_refl _, .extension x, haccount, hrest⟩
      | beginBinary size =>
          cases size with
          | none => cases hrefusal
          | some n =>
              obtain ⟨_, rest, _, rfl, hlt, ⟨chunks, rfl, rfl⟩, hfull, hclosed⟩ :=
                split_binary rfl hrest hlen
              obtain rfl : chunks.flatten.length = n := by simpa using hfull
              exact ⟨_, rest, _, inner, by simp, Nat.le_of_lt hlt, .binary chunks, haccount,
                hclosed⟩
      | beginArray size =>
          cases size with
          | none => cases hrefusal
          | some n =>
              obtain ⟨_, rest, _, rfl, hlt, ⟨elems, helems, rfl⟩, hfull, hclosed⟩ :=
                split_array ih hk hes' rfl hrest hlen
              obtain rfl : elems.length = n := by simpa using hfull
              exact ⟨_, rest, _, inner, by simp, Nat.le_of_lt hlt, .array helems, haccount, hclosed⟩
      | beginMap size =>
          cases size with
          | none => cases hrefusal
          | some n =>
              obtain ⟨_, rest, _, rfl, hlt, ⟨entries, hentries, rfl⟩, hfull, hclosed⟩ :=
                split_map ih hk hes' rfl rfl rfl hrest hlen
              obtain rfl : entries.length = n := by simpa using hfull
              exact ⟨_, rest, _, inner, by simp, Nat.le_of_lt hlt, .map hentries, haccount, hclosed⟩
      | _ => cases helem

/-- Events that leave no scope open, none having been open before, tell trees
one after another. -/
theorem tells_of_tell {es : List Event} (hes : ∀ x ∈ es, x.refusal? = none)
    (h : tell es [] = .ok () []) : ∃ ts, TellsElems es ts := by
  induction hn : es.length using Nat.strongRecOn generalizing es with
  | ind n ih =>
      subst hn
      cases es with
      | nil => exact ⟨[], .nil⟩
      | cons e es =>
          cases helem : e.isElement with
          | true =>
              obtain ⟨told, rest, t, inner, heq, hle, ht, hnext, hrest⟩ :=
                treesSplit _ (Nat.lt_succ_self es.length) helem hes h (Nat.le_refl _)
              cases hnext
              have hsub : ∀ x ∈ rest, x.refusal? = none := fun x hx =>
                hes x (heq ▸ List.mem_append_right told hx)
              obtain ⟨ts, hts⟩ := ih rest.length (Nat.lt_succ_of_le hle) hsub hrest rfl
              exact ⟨t :: ts, heq ▸ .cons ht hts⟩
          | false =>
              -- outside all scopes nothing begins but a tree
              obtain ⟨inner, haccount, -⟩ := tell_cons_ok_iff.mp h
              cases e <;> cases helem <;> cases haccount

/-- The bookkeeping accepts a sequence of events exactly if it tells trees. -/
theorem tell_iff_tells {es : List Event} (hes : ∀ x ∈ es, x.refusal? = none) :
    tell es [] = .ok () [] ↔ ∃ ts, TellsElems es ts := by
  refine ⟨tells_of_tell hes, ?_⟩
  rintro ⟨ts, hts⟩
  exact hts.tell (fun _ => []) fun _ _ => rfl

end MsgPack
