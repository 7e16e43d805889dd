import MsgPack.Source

/-!
Running the steps of readers and writers: what the operations of their monad do
to a state, and how a sequence of steps that succeeds comes apart.
-/

namespace MsgPack

section Run

variable {ε σ α β : Type} {x : EStateM ε σ α} {f : α → EStateM ε σ β} {s t : σ}

@[simp] theorem pure_apply (a : α) (s : σ) : (pure a : EStateM ε σ α) s = .ok a s := rfl

@[simp] theorem throw_apply (e : ε) (s : σ) : (throw e : EStateM ε σ α) s = .error e s := rfl

@[simp] theorem get_apply (s : σ) : (get : EStateM ε σ σ) s = .ok s s := rfl

@[simp] theorem set_apply (s t : σ) : (set t : EStateM ε σ PUnit) s = .ok .unit t := rfl

@[simp] theorem modify_apply (f : σ → σ) (s : σ) :
    (modify f : EStateM ε σ PUnit) s = .ok .unit (f s) := rfl

theorem map_apply (g : α → β) (x : EStateM ε σ α) (s : σ) :
    (g <$> x) s = (x >>= fun a => pure (g a)) s := rfl

theorem discard_apply (x : EStateM ε σ α) (s : σ) :
    discard x s = (x >>= fun _ => pure ()) s := rfl

theorem bind_apply (x : EStateM ε σ α) (f : α → EStateM ε σ β) (s : σ) :
    (x >>= f) s = match x s with
      | .ok a t => f a t
      | .error e t => .error e t := rfl

theorem bind_of_ok {a : α} (h : x s = .ok a t) : (x >>= f) s = f a t := by
  rw [bind_apply, h]

theorem bind_of_error {e : ε} (h : x s = .error e t) : (x >>= f) s = .error e t := by
  rw [bind_apply, h]

theorem tryCatch_of_error {e : ε} {handler : ε → EStateM ε σ α} (h : x s = .error e t) :
    (tryCatch x handler : EStateM ε σ α) s = handler e t := by
  show EStateM.tryCatch x handler s = _
  delta EStateM.tryCatch
  rw [h]
  rfl

theorem bind_eq_ok_iff {b : β} {u : σ} :
    (x >>= f) s = .ok b u ↔ ∃ a t, x s = .ok a t ∧ f a t = .ok b u := by
  rw [bind_apply]
  cases x s <;> simp [and_assoc]

theorem bind_eq_error_iff {e : ε} {u : σ} :
    (x >>= f) s = .error e u ↔
      x s = .error e u ∨ ∃ a t, x s = .ok a t ∧ f a t = .error e u := by
  rw [bind_apply]
  cases x s <;> simp [and_assoc]

/-- Two sequences do the same in a state where their first steps do, if the rest
does the same wherever that leads. -/
theorem bind_congr_at {y : EStateM ε σ α} {g : α → EStateM ε σ β} (hx : x s = y s)
    (hf : ∀ a t, y s = .ok a t → f a t = g a t) : (x >>= f) s = (y >>= g) s := by
  rw [bind_apply, bind_apply, hx]
  cases hy : y s with
  | ok a t => exact hf a t hy
  | error e t => rfl

theorem return_return {γ : Type} (step : EStateM ε σ α) (f : α → β) (g : β → γ) :
    ((step >>= fun a => pure (f a)) >>= fun b => pure (g b)) =
      step >>= fun a => pure (g (f a)) := by
  rw [bind_assoc]
  rfl

theorem return_id (step : EStateM ε σ α) : (do return id (← step) : EStateM ε σ α) = step :=
  bind_pure step

end Run

section Collect

variable {σ α : Type} (step : EStateM Error σ α)

theorem collect_go (n : Nat) (found : List α) :
    collect.go step n found = do
      let xs ← collect.go step n []
      return found.reverse ++ xs := by
  induction n generalizing found with
  | zero => simp only [collect.go, pure_bind, List.reverse_nil, List.append_nil]
  | succ n ih =>
      simp only [collect.go, bind_assoc]
      refine bind_congr fun x => ?_
      rw [ih (x :: found), ih [x]]
      simp

@[simp] theorem collect_zero : collect step 0 = pure [] := rfl

theorem collect_succ (n : Nat) :
    collect step (n + 1) = do
      let x ← step
      let xs ← collect step n
      return x :: xs := by
  show collect.go step (n + 1) [] = _
  simp only [collect.go]
  refine bind_congr fun x => ?_
  rw [collect_go]
  rfl

theorem collect_map {β : Type} (f : α → β) (n : Nat) :
    collect (do return f (← step)) n = do return (← collect step n).map f := by
  induction n with
  | zero => rfl
  | succ n ih =>
      rw [collect_succ, collect_succ, ih]
      simp only [bind_assoc, pure_bind, List.map_cons]

end Collect

end MsgPack
