import MsgPack.Proofs.Cursor.Skipping
import MsgPack.Proofs.Value.Scanning

/-!
The course of reading a value. How much a container holds is announced before
any of it is there, so that the loops of a reader are bounded by what the input
says and not by what it has. It is the bytes that pay for the turns: every value
that is begun takes one of its own, but for the last one of a run that fails.

A run is told as a relation between where it begins, the places at which values
are begun, and how it ends, with every turn of every loop a step of its own.
-/

namespace MsgPack

open Cursor (headerOf places)
open EStateM (Result)

/-! ### What pays for a run -/

namespace Source

/-- The marker of a container comes next. -/
def Opens (s : Source) (kind : Container) : Prop :=
  ∃ m, Get.marker s = .ok m s ∧ m.code.entity? = some kind.entity

/-- If a container is announced here, each of its places has a byte behind the
header. -/
def Backed (s : Source) : Prop :=
  ∀ (kind : Container) (n : Nat) (t : Source), headerOf kind s = .ok n t →
    places kind n ≤ t.left.length

/-- Between `s` and `t` each of the places has had a byte of its own, and no
container was begun at them that announces more than comes behind it. -/
structure Paid (s : Source) (ps : List Source) (t : Source) : Prop where
  length : t.left.length + ps.length ≤ s.left.length
  backed : ∀ u ∈ ps, u.Backed

variable {s t u : Source} {ps qs : List Source} {kind kind' : Container} {n : Nat}

theorem Opens.unique (h : s.Opens kind) (h' : s.Opens kind') : kind = kind' := by
  obtain ⟨m, hm, he⟩ := h
  obtain ⟨m', hm', he'⟩ := h'
  cases hm.symm.trans hm'
  exact Container.entity_inj (Option.some.inj (he.symm.trans he'))

theorem opens_of_headerOf (h : headerOf kind s = .ok n t) : s.Opens kind := by
  obtain ⟨bs, rest, hl, hbegins⟩ := Cursor.begins_of_headerOf h
  exact Get.marker_of_begins hbegins hl

theorem length_lt_of_headerOf (h : headerOf kind s = .ok n t) :
    t.left.length < s.left.length := by
  obtain ⟨header, rest, hl, hopening, rfl⟩ := Cursor.opening_of_headerOf h
  have hpos := List.length_pos_of_ne_nil hopening.begins.ne_nil
  rw [left_advance_length hl, hl, List.length_append]
  omega

theorem backed_of_headerOf (h : headerOf kind s = .ok n t) (hn : places kind n ≤ t.left.length) :
    s.Backed := by
  intro kind' n' t' h'
  obtain rfl := (opens_of_headerOf h').unique (opens_of_headerOf h)
  cases h.symm.trans h'
  exact hn

theorem Paid.nil (s : Source) : Paid s [] s := ⟨Nat.le_refl _, List.forall_mem_nil _⟩

theorem Paid.append (h : Paid s ps t) (h' : Paid t qs u) : Paid s (ps ++ qs) u where
  length := by
    have hps := h.length
    have hqs := h'.length
    rw [List.length_append]
    omega
  backed := List.forall_mem_append.mpr ⟨h.backed, h'.backed⟩

theorem Paid.flat (h : ∀ kind, ¬s.Opens kind) (hlt : t.left.length < s.left.length) :
    Paid s [s] t where
  length := hlt
  backed := List.forall_mem_singleton.mpr fun kind _ _ hheader =>
    absurd (opens_of_headerOf hheader) (h kind)

theorem Paid.container (h : Paid t ps u) (hheader : headerOf kind s = .ok n t)
    (hn : places kind n ≤ ps.length) : Paid s (s :: ps) u where
  length := by
    have hps := h.length
    have hlt := length_lt_of_headerOf hheader
    rw [List.length_cons]
    omega
  backed := by
    have hps := h.length
    exact List.forall_mem_cons.mpr ⟨backed_of_headerOf hheader (by omega), h.backed⟩

end Source

open Source (Paid)

/-- The result with something made of the answer. -/
def mapResult {ε σ α β : Type} (f : α → β) : Result ε σ α → Result ε σ β
  | .ok a s => .ok (f a) s
  | .error e s => .error e s

/-- What a run from `s` by way of the places has got for its bytes: an answer of
which `p` holds, or, if it fails, one place at most that has had no byte. -/
def Spends {σ α : Type} [Fed σ] (s : Source) (ps : List Source) (p : α → Prop) :
    Result Error σ α → Prop
  | .ok a c => Paid s ps (Fed.source c) ∧ p a
  | .error _ _ => ps.length ≤ s.left.length + 1

namespace Spends

variable {σ α β : Type} [Fed σ] {r : Result Error σ α} {s t : Source} {ps qs : List Source}
  {p : α → Prop} {q : β → Prop}

/-- A single place, of a run that fails there. -/
theorem single {e : Error} {c : σ} (s : Source) : Spends s [s] p (.error e c) :=
  Nat.le_add_left 1 _

theorem mono {p' : α → Prop} (h : Spends s ps p r) (hp : ∀ a, p a → p' a) : Spends s ps p' r := by
  cases r with
  | ok a c => exact ⟨h.1, hp a h.2⟩
  | error e c => exact h

theorem map {f : α → β} (h : Spends s ps p r) (hf : ∀ a, p a → q (f a)) :
    Spends s ps q (mapResult f r) := by
  cases r with
  | ok a c => exact ⟨h.1, hf a h.2⟩
  | error e c => exact h

theorem append (h' : Spends t qs p r) (h : Paid s ps t) : Spends s (ps ++ qs) p r := by
  cases r with
  | ok a c => exact ⟨h.append h'.1, h'.2⟩
  | error e c =>
      have hqs : qs.length ≤ t.left.length + 1 := h'
      have hps := h.length
      show (ps ++ qs).length ≤ s.left.length + 1
      rw [List.length_append]
      omega

theorem container {kind : Container} {n : Nat} (h : Spends t ps p r)
    (hheader : headerOf kind s = .ok n t) (hn : ∀ a, p a → places kind n ≤ ps.length) :
    Spends s (s :: ps) p r := by
  cases r with
  | ok a c => exact ⟨h.1.container hheader (hn a h.2), h.2⟩
  | error e c =>
      have hps : ps.length ≤ t.left.length + 1 := h
      have hlt := Source.length_lt_of_headerOf hheader
      show (s :: ps).length ≤ s.left.length + 1
      rw [List.length_cons]
      omega

/-- However the run ends, there is one place more than bytes at most. -/
theorem length_le (h : Spends s ps p r) : ps.length ≤ s.left.length + 1 := by
  cases r with
  | ok a c => exact Nat.le_succ_of_le (Nat.le_of_add_left_le h.1.length)
  | error e c => exact h

end Spends

/-- The run from `s` is paid for by the bytes it finds. It takes a course, by way
of the places at which something is begun, and every course there is ends as the
run does. There is one place more than bytes at most, and if the run succeeds,
each place has had a byte of its own. If somewhere on the way a container
announces more than comes behind its header, the run fails. -/
structure PaidFor {σ α : Type} [Fed σ] (courses : List Source → Result Error σ α → Prop)
    (s : Source) (run : Result Error σ α) : Prop where
  takes : ∃ ps, courses ps run
  ends : ∀ ps r, courses ps r → r = run
  places_le : ∀ ps r, courses ps r → ps.length ≤ s.left.length + 1
  bytes_le : ∀ ps a c, courses ps (.ok a c) →
    (Fed.source c).left.length + ps.length ≤ s.left.length
  fails : ∀ ps r, courses ps r → ∀ u ∈ ps, ¬u.Backed → ∃ e c, r = .error e c

theorem PaidFor.of_spends {σ α : Type} [Fed σ] {courses : List Source → Result Error σ α → Prop}
    {s : Source} {run : Result Error σ α} {p : List Source → α → Prop}
    (htakes : ∃ ps r, courses ps r) (hends : ∀ ps r, courses ps r → r = run)
    (hspends : ∀ ps r, courses ps r → Spends s ps (p ps) r) : PaidFor courses s run where
  takes := by
    obtain ⟨ps, r, h⟩ := htakes
    exact ⟨ps, hends ps r h ▸ h⟩
  ends := hends
  places_le ps r h := (hspends ps r h).length_le
  bytes_le ps a c h := (hspends ps _ h).1.length
  fails ps r h u hu hbacked := by
    cases r with
    | ok a c => exact absurd ((hspends ps _ h).1.backed u hu) hbacked
    | error e c => exact ⟨e, c, rfl⟩

/-! ### Trees and sequences -/

namespace Value

variable {β : Type}

mutual

/-- The number of values in a value: itself and, of containers, all elements,
keys and values inside. -/
def nodes : Value β → Nat
  | array elems => nodesAll elems + 1
  | map entries => nodesEntries entries + 1
  | nil | bool _ | binary _ | extension .. | number _ | string _ => 1

def nodesAll : List (Value β) → Nat
  | [] => 0
  | v :: vs => nodes v + nodesAll vs

def nodesEntries : List (Value β × Value β) → Nat
  | [] => 0
  | (k, v) :: es => nodes k + nodes v + nodesEntries es

end

mutual

/-- The number of containers inside each other. -/
def height : Value β → Nat
  | array elems => heightAll elems + 1
  | map entries => heightEntries entries + 1
  | nil | bool _ | binary _ | extension .. | number _ | string _ => 0

def heightAll : List (Value β) → Nat
  | [] => 0
  | v :: vs => max (height v) (heightAll vs)

def heightEntries : List (Value β × Value β) → Nat
  | [] => 0
  | (k, v) :: es => max (max (height k) (height v)) (heightEntries es)

end

theorem nodes_pos (v : Value β) : 0 < v.nodes := by
  cases v <;> simp [nodes]

theorem length_le_nodesAll (vs : List (Value β)) : vs.length ≤ nodesAll vs := by
  induction vs with
  | nil => exact Nat.le_refl _
  | cons v vs ih =>
      have := v.nodes_pos
      rw [nodesAll, List.length_cons]
      omega

end Value

/-- A sequence taken two by two. -/
def pairs {α : Type} : List α → List (α × α)
  | a :: b :: rest => (a, b) :: pairs rest
  | _ => []

/-- The container that holds a sequence. In a map keys and values alternate. -/
def Container.value {β : Type} : Container → List (Value β) → Value β
  | .array, vs => .array vs
  | .map, vs => .map (pairs vs)

section Pairs

variable {β : Type}

theorem nodesEntries_pairs : (n : Nat) → (vs : List (Value β)) → vs.length = 2 * n →
    Value.nodesEntries (pairs vs) = Value.nodesAll vs
  | 0, [], _ => rfl
  | n + 1, k :: v :: vs, h => by
      have h : vs.length + 1 + 1 = 2 * (n + 1) := h
      rw [pairs, Value.nodesEntries, nodesEntries_pairs n vs (by omega), Value.nodesAll,
        Value.nodesAll, Nat.add_assoc]

theorem heightEntries_pairs : (vs : List (Value β)) →
    Value.heightEntries (pairs vs) ≤ Value.heightAll vs
  | [] | [_] => Nat.zero_le _
  | k :: v :: vs => by
      have := heightEntries_pairs vs
      simp only [pairs, Value.heightEntries, Value.heightAll]
      omega

theorem nodes_container {kind : Container} {n : Nat} {vs : List (Value β)}
    (h : vs.length = places kind n) : (kind.value vs).nodes = Value.nodesAll vs + 1 := by
  cases kind with
  | array => rfl
  | map => exact congrArg (· + 1) (nodesEntries_pairs n vs h)

theorem height_container (kind : Container) (vs : List (Value β)) :
    (kind.value vs).height ≤ Value.heightAll vs + 1 := by
  cases kind with
  | array => exact Nat.le_refl _
  | map => exact Nat.succ_le_succ (heightEntries_pairs vs)

end Pairs

theorem mapResult_eq {ε σ α β : Type} (step : EStateM ε σ α) (f : α → β) (s : σ) :
    (do return f (← step)) s = mapResult f (step s) := by
  rw [bind_apply]
  cases step s <;> rfl

/-- Steps that are repeated in pairs are repeated twice as often. -/
theorem collect_pairs {σ α : Type} (step : EStateM Error σ α) (n : Nat) :
    collect (do return (← step, ← step)) n = do return pairs (← collect step (2 * n)) := by
  induction n with
  | zero => rfl
  | succ n ih =>
      rw [Nat.mul_succ, collect_succ, collect_succ, collect_succ, ih]
      simp only [bind_assoc, pure_bind, pairs]

/-! ### One value at a time -/

namespace Value

variable {β : Type} [Takes β] {s t : Source} {kind : Container} {n : Nat} {get : Get (Value β)}

theorem getWith_of_flat (h : ∀ kind, ¬s.Opens kind) (inside : Option (Get (Value β))) :
    getWith inside s = getWith none s := by
  show (Get.marker >>= _) s = (Get.marker >>= _) s
  cases hm : Get.marker s with
  | error e t => rw [bind_of_error hm, bind_of_error hm]
  | ok m t =>
      obtain rfl := Get.still_marker _ _ _ hm
      rw [bind_of_ok hm, bind_of_ok hm]
      cases he : m.code.entity? with
      | none => rfl
      | some e =>
          cases e with
          | array => exact absurd ⟨m, hm, he⟩ (h .array)
          | map => exact absurd ⟨m, hm, he⟩ (h .map)
          | _ => rfl

theorem getWith_of_opens (h : s.Opens kind) :
    getWith (none : Option (Get (Value β))) s = .error (.recursionLimit .value) s := by
  obtain ⟨m, hm, he⟩ := h
  rw [getWith, bind_of_ok hm, he]
  cases kind <;> rfl

theorem getWith_of_headerOf_error {e : Error} (h : s.Opens kind)
    (hheader : headerOf kind s = .error e t) : getWith (some get) s = .error e t := by
  obtain ⟨m, hm, he⟩ := h
  rw [getWith, bind_of_ok hm, he]
  cases kind <;> exact bind_of_error hheader

theorem getWith_of_headerOf (hheader : headerOf kind s = .ok n t) :
    getWith (some get) s = mapResult kind.value (collect get (places kind n) t) := by
  obtain ⟨m, hm, he⟩ := Source.opens_of_headerOf hheader
  rw [getWith, bind_of_ok hm, he]
  cases kind with
  | array =>
      refine (bind_of_ok hheader).trans ?_
      exact mapResult_eq (collect get n) Value.array t
  | map =>
      refine (bind_of_ok hheader).trans ?_
      rw [collect_pairs, bind_assoc]
      exact mapResult_eq (collect get (2 * n)) (fun vs => Value.map (pairs vs)) t

end Value

namespace Storage

variable (storage : Storage)

theorem value_zero : storage.value 0 = @Value.getWith Bytes storage.takes none :=
  storage.value_eq 0

theorem value_succ (depth : Nat) :
    storage.value (depth + 1) = @Value.getWith Bytes storage.takes (some (storage.value depth)) := by
  rw [storage.value_eq, storage.value_eq]
  rfl

theorem value_of_flat {s : Source} (h : ∀ kind, ¬s.Opens kind) (depth : Nat) :
    storage.value depth s = storage.value 0 s := by
  cases depth with
  | zero => rfl
  | succ depth =>
      rw [value_succ, value_zero]
      exact @Value.getWith_of_flat Bytes storage.takes s h _

end Storage

/-! ### Courses -/

mutual

/-- Reading a value with at most `depth` levels of containers, from `s` by way of
the places at which a value is begun to the result. -/
inductive Course (storage : Storage) :
    (depth : Nat) → Source → List Source → Result Error Source OwnedValue → Prop
  | flat {depth : Nat} {s : Source} (h : ∀ kind, ¬s.Opens kind) :
      Course storage depth s [s] (storage.value 0 s)
  | tooDeep {s : Source} {kind : Container} (h : s.Opens kind) :
      Course storage 0 s [s] (.error (.recursionLimit .value) s)
  | unannounced {depth : Nat} {s t : Source} {kind : Container} {e : Error} (h : s.Opens kind)
      (hheader : headerOf kind s = .error e t) :
      Course storage (depth + 1) s [s] (.error e t)
  | container {depth n : Nat} {s t : Source} {kind : Container} {ps : List Source}
      {r : Result Error Source (List OwnedValue)} (hheader : headerOf kind s = .ok n t)
      (hinside : Courses storage depth (places kind n) t ps r) :
      Course storage (depth + 1) s (s :: ps) (mapResult kind.value r)

/-- Reading `k` values one after another. -/
inductive Courses (storage : Storage) : (depth k : Nat) → Source → List Source →
    Result Error Source (List OwnedValue) → Prop
  | done {depth : Nat} {s : Source} : Courses storage depth 0 s [] (.ok [] s)
  | failed {depth k : Nat} {s t : Source} {ps : List Source} {e : Error}
      (h : Course storage depth s ps (.error e t)) :
      Courses storage depth (k + 1) s ps (.error e t)
  | next {depth k : Nat} {s t : Source} {ps qs : List Source} {v : OwnedValue}
      {r : Result Error Source (List OwnedValue)} (h : Course storage depth s ps (.ok v t))
      (hrest : Courses storage depth k t qs r) :
      Courses storage depth (k + 1) s (ps ++ qs) (mapResult (v :: ·) r)

end

section Courses

variable {storage : Storage}

theorem collect_succ_of_ok {α : Type} {get : Get α} {a : α} {s t : Source} (h : get s = .ok a t)
    (k : Nat) : collect get (k + 1) s = mapResult (a :: ·) (collect get k t) := by
  rw [collect_succ, bind_of_ok h]
  exact mapResult_eq (collect get k) (a :: ·) t

theorem collect_succ_of_error {α : Type} {get : Get α} {e : Error} {s t : Source}
    (h : get s = .error e t) (k : Nat) : collect get (k + 1) s = .error e t := by
  rw [collect_succ, bind_of_error h]

mutual

/-- A course ends as the reader does. -/
theorem Course.result_eq {depth : Nat} {s : Source} {ps : List Source}
    {r : Result Error Source OwnedValue} (h : Course storage depth s ps r) :
    r = storage.value depth s := by
  match h with
  | .flat h => exact (storage.value_of_flat h _).symm
  | .tooDeep h =>
      rw [storage.value_zero]
      exact (@Value.getWith_of_opens Bytes storage.takes _ _ h).symm
  | .unannounced h hheader =>
      rw [storage.value_succ]
      exact (@Value.getWith_of_headerOf_error Bytes storage.takes _ _ _ _ _ h hheader).symm
  | .container hheader hinside =>
      rw [storage.value_succ, hinside.result_eq]
      exact (@Value.getWith_of_headerOf Bytes storage.takes _ _ _ _ _ hheader).symm
  termination_by structural h

theorem Courses.result_eq {depth k : Nat} {s : Source} {ps : List Source}
    {r : Result Error Source (List OwnedValue)} (h : Courses storage depth k s ps r) :
    r = collect (storage.value depth) k s := by
  match h with
  | .done => rfl
  | .failed h => exact (collect_succ_of_error h.result_eq.symm _).symm
  | .next h hrest => rw [collect_succ_of_ok h.result_eq.symm, hrest.result_eq]
  termination_by structural h

end

theorem exists_courses {depth : Nat} (hone : ∀ s, ∃ ps r, Course storage depth s ps r) (k : Nat)
    (s : Source) : ∃ ps r, Courses storage depth k s ps r := by
  induction k generalizing s with
  | zero => exact ⟨_, _, .done⟩
  | succ k ih =>
      obtain ⟨ps, r, h⟩ := hone s
      cases r with
      | error e t => exact ⟨_, _, .failed h⟩
      | ok v t =>
          obtain ⟨qs, r, hrest⟩ := ih t
          exact ⟨_, _, .next h hrest⟩

/-- Every run of the reader takes a course. -/
theorem exists_course (storage : Storage) (depth : Nat) (s : Source) :
    ∃ ps r, Course storage depth s ps r := by
  induction depth using Nat.strongRecOn generalizing s with
  | ind depth ih =>
      by_cases hopens : ∃ kind, s.Opens kind
      · obtain ⟨kind, hopens⟩ := hopens
        cases depth with
        | zero => exact ⟨_, _, .tooDeep hopens⟩
        | succ depth =>
            cases hheader : headerOf kind s with
            | error e t => exact ⟨_, _, .unannounced hopens hheader⟩
            | ok n t =>
                obtain ⟨ps, r, hinside⟩ :=
                  exists_courses (ih depth (Nat.lt_succ_self depth)) (places kind n) t
                exact ⟨_, _, .container hheader hinside⟩
      · exact ⟨_, _, .flat (not_exists.mp hopens)⟩

end Courses

/-! ### The cost of a course -/

/-- What is no container is one value, and takes bytes. -/
theorem Storage.leaf_of_value {storage : Storage} {s t : Source} {v : OwnedValue}
    (h : storage.value 0 s = .ok v t) :
    t.left.length < s.left.length ∧ v.nodes = 1 ∧ v.height = 0 := by
  obtain ⟨bs, rest, hl, hv, rfl⟩ := (accepts_get 0).sound (Storage.get_of_value h)
  have hpos := List.length_pos_of_ne_nil (begins_of_derives hv).ne_nil
  refine ⟨?_, ?_⟩
  · rw [Source.left_advance_length hl, hl, List.length_append]
    omega
  · cases hv <;> exact ⟨rfl, rfl⟩

section Courses

variable {storage : Storage}

mutual

/-- A value that is read has a node for each place, and is nested no deeper than
was allowed. -/
theorem Course.spends {depth : Nat} {s : Source} {ps : List Source}
    {r : Result Error Source OwnedValue} (h : Course storage depth s ps r) :
    Spends s ps (fun v => v.nodes = ps.length ∧ v.height ≤ depth) r := by
  match h with
  | .flat (s := s) hflat =>
      cases hvalue : storage.value 0 s with
      | error e t => exact .single s
      | ok v t =>
          obtain ⟨hlt, hnodes, hheight⟩ := Storage.leaf_of_value hvalue
          exact ⟨.flat hflat hlt, hnodes, hheight ▸ Nat.zero_le _⟩
  | .tooDeep _ => exact .single s
  | .unannounced _ _ => exact .single s
  | .container hheader hinside =>
      refine (hinside.spends.container hheader fun vs hvs => ?_).map fun vs hvs => ?_
      · obtain ⟨hlen, hnodes, -⟩ := hvs
        rw [← hlen, ← hnodes]
        exact Value.length_le_nodesAll vs
      · obtain ⟨hlen, hnodes, hheight⟩ := hvs
        refine ⟨?_, Nat.le_trans (height_container _ vs) (Nat.succ_le_succ hheight)⟩
        rw [nodes_container hlen, hnodes, List.length_cons]
  termination_by structural h

theorem Courses.spends {depth k : Nat} {s : Source} {ps : List Source}
    {r : Result Error Source (List OwnedValue)} (h : Courses storage depth k s ps r) :
    Spends s ps (fun vs => vs.length = k ∧ Value.nodesAll vs = ps.length ∧
      Value.heightAll vs ≤ depth) r := by
  match h with
  | .done => exact ⟨.nil s, rfl, rfl, Nat.zero_le _⟩
  | .failed h => exact h.spends
  | .next h hrest =>
      obtain ⟨hpaid, hnodes, hheight⟩ := h.spends
      refine (hrest.spends.append hpaid).map fun vs hvs => ?_
      obtain ⟨hlen, hall, hheights⟩ := hvs
      refine ⟨congrArg (· + 1) hlen, ?_, Nat.max_le.mpr ⟨hheight, hheights⟩⟩
      rw [Value.nodesAll, hnodes, hall, List.length_append]
  termination_by structural h

end

theorem Storage.paidFor_value (storage : Storage) (depth : Nat) (s : Source) :
    PaidFor (Course storage depth s) s (storage.value depth s) :=
  .of_spends (exists_course storage depth s) (fun _ _ h => h.result_eq) fun _ _ h => h.spends

/-- A value has no more nodes than it takes bytes, and is nested no deeper than
was allowed. -/
theorem Storage.nodes_le_of_value {depth : Nat} {s t : Source} {v : OwnedValue}
    (h : storage.value depth s = .ok v t) :
    ∃ n ≤ s.left.length, t = s.advance n ∧ v.nodes ≤ n ∧ v.height ≤ depth := by
  obtain ⟨bs, rest, hl, -, rfl⟩ := (accepts_get depth).sound (Storage.get_of_value h)
  obtain ⟨ps, hcourse⟩ := (storage.paidFor_value depth s).takes
  rw [h] at hcourse
  obtain ⟨hpaid, hnodes, hheight⟩ := hcourse.spends
  have hlength := hpaid.length
  have hleft : (s.advance bs.length).left = rest := Source.left_advance_length hl
  have hbytes : (Fed.source (s.advance bs.length)).left.length + bs.length = s.left.length := by
    show (s.advance bs.length).left.length + bs.length = s.left.length
    rw [hleft, hl, List.length_append, Nat.add_comm]
  exact ⟨bs.length, by omega, rfl, by omega, hheight⟩

end Courses

end MsgPack
