import MsgPack.Proofs.Cursor.Mirroring
import MsgPack.Proofs.Wire.Scanning

/-!
The reader of values looks at nothing behind a value. Views into memory depend
on all that is left of it, so that two runs that read the same value answer with
different views; they are compared where the content has been copied, which is
what a reader of bytes does from the start.
-/

namespace MsgPack

namespace Value

section Map

variable {β γ : Type} [Takes β] [Takes γ] {f : β → γ}

theorem getWith_map (hf : ∀ p, (Takes.take p : Get γ) = do return f (← (Takes.take p : Get β)))
    (inside : Option (Get (Value β))) :
    getWith (inside.map fun get => do return (← get).mapContent f) =
      do return (← getWith inside).mapContent f := by
  simp only [getWith, bind_assoc]
  refine bind_congr fun m => ?_
  cases m.code.entity? with
  | none => rfl
  | some e =>
      cases e with
      | null => simp [Get.after, mapContent]
      | boolean => simp [mapContent]
      | integer => simp [mapContent]
      | floatingPoint => simp [mapContent]
      | string => simp [mapContent, hf]
      | binary => simp [mapContent, hf]
      | extension => simp [mapContent, hf]
      | array =>
          cases inside with
          | none => rfl
          | some get =>
              simp only [Option.map_some, bind_assoc, pure_bind, mapContent, mapElems_eq,
                collect_map]
      | map =>
          cases inside with
          | none => rfl
          | some get =>
              have hentry : (do return (mapContent f (← get), mapContent f (← get))) = (do
                  let e ← (do return (← get, ← get) : Get (Value β × Value β))
                  return Prod.map (mapContent f) (mapContent f) e) := by
                simp only [bind_assoc, pure_bind, Prod.map]
              simp only [Option.map_some, bind_assoc, pure_bind, mapContent, mapEntries_eq]
              rw [hentry]
              simp only [collect_map]
              simp only [bind_assoc, pure_bind]

/-- How content is taken changes nothing else about reading a value. -/
theorem get_map (hf : ∀ p, (Takes.take p : Get γ) = do return f (← (Takes.take p : Get β)))
    (depth : Nat) :
    (Value.get depth : Get (Value γ)) =
      do return (← (Value.get depth : Get (Value β))).mapContent f := by
  induction depth with
  | zero => exact getWith_map hf none
  | succ depth ih =>
      rw [get, ih]
      exact getWith_map hf (some (get depth))

end Map

end Value

/-- Bytes that are taken in the given manner. -/
@[reducible] def Storage.takes (storage : Storage) : Takes Bytes := ⟨storage.take⟩

theorem Storage.value_eq (storage : Storage) (depth : Nat) :
    storage.value depth = @Value.get Bytes storage.takes depth := by
  cases storage with
  | owned => rfl
  | borrowed =>
      exact (@Value.get_map ByteView Bytes _ Storage.borrowed.takes _ (fun _ => rfl) depth).symm

section Scanning

variable {streams : Prop} [Takes Bytes]

theorem scans_getWith
    (htake : ∀ p : Payload, p.Admitted streams → (Takes.take p : Get Bytes) = pure p.bytes)
    {inside : Option (Get (Value Bytes))} (hinside : ∀ get ∈ inside, Scans streams 1 get) :
    Scans streams 1 (Value.getWith inside) := by
  refine Get.peeks_marker.scans fun m => ?_
  split
  · exact Get.scans_after (.pure _)
  · exact Get.scans_bool.map _
  · exact Get.scans_anyNumber.map _
  · exact Get.scans_anyNumber.map _
  · refine Get.scans_text (k := fun bs => pure (.string bs)) (fun p hp => ?_) fun bs => .pure _
    rw [htake p hp, pure_bind]
  · refine Get.scans_binary (k := fun bs => pure (.binary bs)) (fun p hp => ?_) fun bs => .pure _
    rw [htake p hp, pure_bind]
  · refine Get.scans_extension (f := fun type p => do return Value.extension type (← Takes.take p))
      (k := fun type bs => pure (.extension type bs)) (fun type p hp => ?_) fun _ _ => .pure _
    rw [htake p hp, pure_bind]
  · split
    · exact .throw _
    · next get =>
        exact (Get.scans_length _ _).andThen fun n => ((hinside get rfl).collect n).map _
  · split
    · exact .throw _
    · next get =>
        have hget := (hinside get rfl).mono (Nat.zero_le 1)
        exact (Get.scans_length _ _).andThen fun n =>
          ((hget.bind fun k => hget.map fun v => (k, v)).collect n).map _
  · exact Get.scans_refuse _ m

theorem scans_get
    (htake : ∀ p : Payload, p.Admitted streams → (Takes.take p : Get Bytes) = pure p.bytes)
    (depth : Nat) : Scans streams 1 (Value.get depth : Get OwnedValue) := by
  induction depth with
  | zero => exact scans_getWith htake fun _ h => nomatch h
  | succ depth ih =>
      refine scans_getWith htake ?_
      rintro get ⟨⟩
      exact ih

end Scanning

theorem Storage.scans_value {streams : Prop} {storage : Storage}
    (hs : streams → storage = .owned) (depth : Nat) :
    Scans streams 1 (storage.value depth) := by
  rw [storage.value_eq]
  exact @scans_get streams storage.takes (fun p hp => storage.take_admitted hs hp) depth

end MsgPack
