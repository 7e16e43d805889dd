import MsgPack.Bytes

/-!
Languages of byte strings with their readings, and how small ones make up
larger ones.
-/

namespace MsgPack

/-- Strings of bytes, each with what it stands for. -/
abbrev Language (α : Type) : Type := Bytes → α → Prop

namespace Language

variable {α β γ : Type}

/-- The empty string, standing for `a`. -/
def unit (a : α) : Language α := fun bs b => bs = [] ∧ b = a

/-- A string of `L`, then one of the language that its reading selects. -/
def seq (L : Language α) (M : α → Language β) : Language β :=
  fun bs b => ∃ xs ys a, bs = xs ++ ys ∧ L xs a ∧ M a ys b

def image (f : α → β) (L : Language α) : Language β := fun bs b => ∃ a, L bs a ∧ b = f a

def pair (L : Language α) (M : Language β) : Language (α × β) := L.seq fun a => M.image (a, ·)

/-- Strings that begin with a byte, which selects the language of the rest. -/
def byFirst (K : UInt8 → Language α) : Language α :=
  fun bs a => ∃ b rest, bs = b :: rest ∧ K b rest a

/-- `n` strings of `L` in a row. -/
def repeated (L : Language α) : Nat → Language (List α)
  | 0 => unit []
  | n + 1 => L.seq fun a => (repeated L n).image (a :: ·)

/-- The strings of length `n`, standing for themselves. -/
def ofLength (n : Nat) : Language Bytes := fun bs c => bs.length = n ∧ c = bs

theorem seq_image (f : α → β) (L : Language α) :
    (L.seq fun a => unit (f a)) = L.image f := by
  funext bs b
  refine propext ⟨?_, ?_⟩
  · rintro ⟨xs, ys, a, rfl, h, rfl, rfl⟩
    exact ⟨a, by simpa using h, rfl⟩
  · rintro ⟨a, h, rfl⟩
    exact ⟨bs, [], a, by simp, h, rfl, rfl⟩

theorem image_image (f : α → β) (g : β → γ) (L : Language α) :
    (L.image f).image g = L.image fun a => g (f a) := by
  funext bs c
  refine propext ⟨?_, ?_⟩
  · rintro ⟨_, ⟨a, h, rfl⟩, rfl⟩
    exact ⟨a, h, rfl⟩
  · rintro ⟨a, h, rfl⟩
    exact ⟨f a, ⟨a, h, rfl⟩, rfl⟩

theorem image_ofLength {f : Bytes → β} {n : Nat} {bs : Bytes} {b : β} :
    (ofLength n).image f bs b ↔ bs.length = n ∧ b = f bs := by
  refine ⟨?_, ?_⟩
  · rintro ⟨c, ⟨hn, rfl⟩, rfl⟩
    exact ⟨hn, rfl⟩
  · rintro ⟨hn, rfl⟩
    exact ⟨bs, ⟨hn, rfl⟩, rfl⟩

section Mono

variable {L L' : Language α} {M M' : Language β} {bs : Bytes}

theorem pair_mono (hL : ∀ bs a, L bs a → L' bs a) (hM : ∀ bs b, M bs b → M' bs b) {e : α × β}
    (h : L.pair M bs e) : L'.pair M' bs e := by
  obtain ⟨xs, ys, a, rfl, ha, b, hb, rfl⟩ := h
  exact ⟨xs, ys, a, rfl, hL _ _ ha, b, hM _ _ hb, rfl⟩

theorem repeated_mono (hL : ∀ bs a, L bs a → L' bs a) {n : Nat} {as : List α}
    (h : L.repeated n bs as) : L'.repeated n bs as := by
  induction n generalizing bs as with
  | zero => exact h
  | succ n ih =>
      obtain ⟨xs, ys, a, rfl, ha, as, has, rfl⟩ := h
      exact ⟨xs, ys, a, rfl, hL _ _ ha, as, ih has, rfl⟩

/-- Strings of `L`, one for each element of a list. -/
theorem repeated_map {spell : γ → Bytes} {mean : γ → α} {cs : List γ}
    (h : ∀ c ∈ cs, L (spell c) (mean c)) :
    L.repeated cs.length (cs.flatMap spell) (cs.map mean) := by
  induction cs with
  | nil => exact ⟨rfl, rfl⟩
  | cons c cs ih =>
      rw [List.forall_mem_cons] at h
      exact ⟨_, _, _, rfl, h.1, _, ih h.2, rfl⟩

end Mono

end Language

end MsgPack
