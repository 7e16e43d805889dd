import MsgPack.Proofs.Step
import MsgPack.Wire.Put

/-!
Writing steps as runs. Every entity is a few runs that are fixed before the
first of them is handed over, so that what a step writes and how it fails are
facts about lists of runs, and steps that follow each other write what they
write one by one.
-/

namespace MsgPack.Put

/-- Hands over one run after another and tells how many bytes they were. -/
def runAll (runs : List Bytes) : Put Nat := do
  forM runs run
  return runs.flatten.length

theorem run_buffer {s : Sink} (h : s.kind = .buffer) (bs : Bytes) :
    run bs s = .ok () (s.append bs) := by
  simp only [run, h]

end MsgPack.Put

namespace MsgPack.Sink

@[simp] theorem kind_append (s : Sink) (bs : Bytes) : (s.append bs).kind = s.kind := rfl

@[simp] theorem append_nil (s : Sink) : s.append [] = s := by
  simp [append]

theorem append_append (s : Sink) (xs ys : Bytes) :
    (s.append xs).append ys = s.append (xs ++ ys) := by
  have hout : s.out ++ xs ++ ys = s.out ++ (xs ++ ys) := Array.ext' (by simp)
  simp only [append, hout]

theorem toList_append (s : Sink) (bs : Bytes) :
    (s.append bs).out.toList = s.out.toList ++ bs := by
  simp [append]

end MsgPack.Sink

namespace MsgPack.Put

theorem forM_run_buffer {s : Sink} (h : s.kind = .buffer) (runs : List Bytes) :
    forM runs run s = .ok () (s.append runs.flatten) := by
  induction runs generalizing s with
  | nil => simp [pure_apply]
  | cons bs runs ih =>
      rw [List.forM_cons, bind_of_ok (run_buffer h bs), ih (s := s.append bs) h,
        Sink.append_append, List.flatten_cons]

theorem runAll_buffer {s : Sink} (h : s.kind = .buffer) (runs : List Bytes) :
    runAll runs s = .ok runs.flatten.length (s.append runs.flatten) := by
  rw [runAll]
  rw [bind_of_ok (forM_run_buffer h runs), pure_apply]

/-- What a step writes where there is room for everything. -/
def bytes (put : Put Nat) : Bytes :=
  match put { kind := .buffer } with
  | .ok _ s => s.out.toList
  | .error _ _ => []

@[simp] theorem bytes_runAll (runs : List Bytes) : bytes (runAll runs) = runs.flatten := by
  rw [bytes]
  rw [runAll_buffer rfl]
  simp [Sink.append]

/-! ### Steps as runs -/

theorem runAll_nil : runAll [] = pure 0 := rfl

theorem run_eq_runAll (bs : Bytes) : (do run bs; return bs.length) = runAll [bs] := by
  simp [runAll]

theorem runAll_bind_run (runs : List Bytes) (bs : Bytes) :
    (do let n ← runAll runs; run bs; return n + bs.length) = runAll (runs ++ [bs]) := by
  simp [runAll, List.forM_append]

theorem marker_eq (m : Marker) : marker m = runAll [[m.toByte]] := by
  simp [marker, runAll]

theorem scalar_eq (code : Typecode) (width n : Nat) :
    scalar code width n = runAll [code.toByte :: Bytes.ofNat width n] := by
  simp [scalar, runAll, Nat.add_comm]

theorem checkLength_of_le {what : Sized} {n : Nat} (h : n ≤ maxLength) :
    checkLength what n = pure () := if_pos h

theorem checkLength_of_lt {what : Sized} {n : Nat} (h : maxLength < n) :
    checkLength what n = throw (.invalidFormat (.length what n)) :=
  if_neg (Nat.not_le.mpr h)

/-! ### What a step writes -/

section Writes

variable {s t : Sink} {put put' : Put Nat} {bs bs' : Bytes} {runs : List Bytes} {n : Nat}

theorem run_ok (h : run bs s = .ok () t) : t = s.append bs := by
  unfold run at h
  split at h
  · cases h
    rfl
  · cases h
    rfl
  · dsimp only at h
    split at h <;> cases h
    rfl
  · dsimp only at h
    split at h <;> cases h
    rfl

theorem forM_run_ok (h : forM runs run s = .ok () t) : t = s.append runs.flatten := by
  induction runs generalizing s with
  | nil =>
      cases h
      exact (Sink.append_nil _).symm
  | cons bs runs ih =>
      rw [List.forM_cons] at h
      obtain ⟨_, u, hfirst, hrest⟩ := bind_eq_ok_iff.mp h
      obtain rfl := run_ok hfirst
      rw [ih hrest, Sink.append_append, List.flatten_cons]

theorem runAll_ok (h : runAll runs s = .ok n t) :
    n = runs.flatten.length ∧ t = s.append runs.flatten := by
  obtain ⟨_, u, hruns, hu⟩ := bind_eq_ok_iff.mp h
  cases hu
  exact ⟨rfl, forM_run_ok hruns⟩

/-- The step hands over `bs`, in runs that are settled before the first of them
goes out, and tells how many bytes they are. -/
def Writes (put : Put Nat) (bs : Bytes) : Prop := ∃ runs, put = runAll runs ∧ runs.flatten = bs

namespace Writes

theorem ofRuns (runs : List Bytes) : Writes (runAll runs) runs.flatten := ⟨runs, rfl, rfl⟩

theorem single (h : put = runAll [bs]) : Writes put bs := ⟨_, h, List.flatten_singleton⟩

theorem pair (h : put = runAll [bs, bs']) : Writes put (bs ++ bs') :=
  ⟨_, h, by simp⟩

theorem bytes_eq (h : Writes put bs) : bytes put = bs := by
  obtain ⟨runs, rfl, rfl⟩ := h
  exact bytes_runAll runs

/-- A buffer takes everything. -/
theorem buffer (h : Writes put bs) (hs : s.kind = .buffer) :
    put s = .ok bs.length (s.append bs) := by
  obtain ⟨runs, rfl, rfl⟩ := h
  exact runAll_buffer hs runs

/-- Whatever the sink, a success tells how many bytes have landed. -/
theorem ok (h : Writes put bs) (hput : put s = .ok n t) : n = bs.length ∧ t = s.append bs := by
  obtain ⟨runs, rfl, rfl⟩ := h
  exact runAll_ok hput

theorem nothing : Writes (pure 0) [] := ofRuns []

theorem next (h : Writes put bs) (h' : Writes put' bs') :
    Writes (do let m ← put; let n ← put'; return m + n) (bs ++ bs') := by
  obtain ⟨runs, rfl, rfl⟩ := h
  obtain ⟨runs', rfl, rfl⟩ := h'
  refine ⟨runs ++ runs', ?_, List.flatten_append⟩
  simp [runAll, List.forM_append]

/-- A list is written behind a header, with the count carried along. -/
theorem foldl {α : Type} {f : Nat → α → Put Nat} {item : α → Put Nat} {spell : α → Bytes}
    (hf : ∀ n x, f n x = do return n + (← item x)) {xs : List α}
    (hitem : ∀ x ∈ xs, Writes (item x) (spell x)) (h : Writes put bs) :
    Writes (do let n ← put; xs.foldlM f n) (bs ++ xs.flatMap spell) := by
  induction xs generalizing put bs with
  | nil =>
      simp only [List.foldlM_nil, bind_pure, List.flatMap_nil, List.append_nil]
      exact h
  | cons x xs ih =>
      rw [List.forall_mem_cons] at hitem
      have hnext := ih hitem.2 (h.next hitem.1)
      simp only [bind_assoc, pure_bind, List.append_assoc] at hnext
      simp only [List.foldlM_cons, hf, bind_assoc, pure_bind]
      exact hnext

end Writes

end Writes

end MsgPack.Put
