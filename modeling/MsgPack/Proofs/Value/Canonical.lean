import MsgPack.Proofs.Wire.Shortest

/-!
The canonical form of a value. A value that was read is written so that it is
read again, and in the lossless policy, where all its floats are finite, no
string that is read as that value is shorter.
-/

namespace MsgPack

open Grammar (Derives DerivesElems DerivesEntries)

/-- Whether a tree is no infinity and no NaN. -/
def Tree.Finite : Tree → Prop
  | float _ x => x.isFinite
  | _ => True

instance : DecidablePred Tree.Finite
  | .float _ x => inferInstanceAs (Decidable (x.isFinite = true))
  | .nil | .bool _ | .int .. | .text _ | .extension _ | .binary _ | .array _ | .map _ =>
    .isTrue trivial

namespace Value

/-- Whether every float in a value is finite. -/
def Finite (v : OwnedValue) : Prop := v.tree.Everywhere Tree.Finite

instance (v : OwnedValue) : Decidable v.Finite :=
  inferInstanceAs (Decidable (v.tree.Everywhere Tree.Finite))

section Length

variable {header : Bytes} {policy : EncodePolicy}

theorem length_bytes_text {bs : Bytes} (h : Grammar.TextHeader header bs.length) :
    ((Tree.text bs).bytes policy).length ≤ header.length + bs.length := by
  have hput := (Event.text_put (length_of_header (by decide) (by decide) h)).2
  rw [Tree.bytes, hput, Put.bytes_runAll]
  simpa using Put.length_textHeader_le h

theorem length_bytes_binary {bs : Bytes} (h : Grammar.BinaryHeader header bs.length) :
    ((Tree.binary bs).bytes policy).length ≤ header.length + bs.length := by
  rw [Tree.bytes, List.length_append]
  exact Nat.add_le_add_right (Put.length_binaryHeader_le h) _

theorem length_bytes_extension {e : Extension}
    (h : Grammar.ExtensionHeader header e.data.length) :
    ((Tree.extension e).bytes policy).length ≤ header.length + 1 + e.data.length := by
  have hput := (Event.extension_put (length_of_header (by decide) (by decide) h)).2
  rw [Tree.bytes, hput, Put.bytes_runAll]
  simpa using Put.length_extensionHeader_le e.type h

end Length

mutual

/-- No string of a value is shorter than the one that is written. -/
theorem length_bytes_le {depth : Nat} {bs : Bytes} {v : OwnedValue} (h : Derives depth bs v)
    (hv : v.Finite) : (v.tree.bytes .lossless).length ≤ bs.length := by
  cases h with
  | nil => exact Nat.le_refl 1
  | false => exact Nat.le_refl 1
  | true => exact Nat.le_refl 1
  | number hn =>
      refine Number.length_bytes_le hn ?_
      rintro x rfl
      exact hv
  | string hheader _ =>
      rw [List.length_append]
      exact length_bytes_text hheader
  | binary hheader =>
      rw [List.length_append]
      exact length_bytes_binary hheader
  | @extension _ header content type hheader =>
      have hle : ((Tree.extension ⟨type, content⟩).bytes .lossless).length ≤ _ :=
        length_bytes_extension hheader
      rw [List.length_append, List.length_cons, Nat.add_comm content.length, ← Nat.add_assoc]
      exact hle
  | array hheader helems =>
      rw [tree, Tree.bytes, List.length_append, List.length_append, length_elemTrees]
      exact Nat.add_le_add (Put.length_arrayHeader_le hheader) (length_bytesElems_le helems hv.2)
  | map hheader hentries =>
      rw [tree, Tree.bytes, List.length_append, List.length_append, length_entryTrees]
      exact Nat.add_le_add (Put.length_mapHeader_le hheader)
        (length_bytesEntries_le hentries hv.2)
termination_by sizeOf v

theorem length_bytesElems_le {depth : Nat} {bs : Bytes} {vs : List OwnedValue}
    (h : DerivesElems depth bs vs) (hvs : Tree.EverywhereElems Tree.Finite (elemTrees vs)) :
    (Tree.bytesElems .lossless (elemTrees vs)).length ≤ bs.length := by
  cases h with
  | nil => exact Nat.le_refl 0
  | cons hv htail =>
      rw [elemTrees, Tree.bytesElems, List.length_append, List.length_append]
      exact Nat.add_le_add (length_bytes_le hv hvs.1) (length_bytesElems_le htail hvs.2)
termination_by sizeOf vs

theorem length_bytesEntries_le {depth : Nat} {bs : Bytes} {es : List (OwnedValue × OwnedValue)}
    (h : DerivesEntries depth bs es) (hes : Tree.EverywhereEntries Tree.Finite (entryTrees es)) :
    (Tree.bytesEntries .lossless (entryTrees es)).length ≤ bs.length := by
  cases h with
  | nil => exact Nat.le_refl 0
  | cons hk hv htail =>
      rw [entryTrees, Tree.bytesEntries, List.length_append, List.length_append,
        List.length_append, List.length_append]
      exact Nat.add_le_add (length_bytes_le hk hes.1)
        (Nat.add_le_add (length_bytes_le hv hes.2.1) (length_bytesEntries_le htail hes.2.2))
termination_by sizeOf es

end

section Canonical

variable {depth : Nat} {input : Bytes} {v : OwnedValue} {s : Source}

/-- A value that was read is written in both policies that keep floats as they
are, and read again from what was written, whatever follows it. If all its
floats are finite, then what the lossless policy writes is the shortest of all
strings that are read as that value, and stays the same when it is read and
written once more. -/
theorem put_get_canonical (h : Get.run (get depth) .memory input = .ok v s) :
    (∀ policy, policy ≠ .aggressive → ∃ n out, v.put policy { kind := .buffer } = .ok n out ∧
      ∀ rest, Get.run (get depth) .memory (out.out.toList ++ rest) =
        .ok v { kind := .memory, left := rest, position := n }) ∧
    (v.Finite → ∃ n out, v.put .lossless { kind := .buffer } = .ok n out ∧ out.out.size = n ∧
      n ≤ s.position ∧
      (∀ input' s', Get.run (get depth) .memory input' = .ok v s' → n ≤ s'.position) ∧
      ∀ (v' : OwnedValue) (s' : Source),
        Get.run (get depth) .memory out.out.toList = .ok v' s' →
          v'.put .lossless { kind := .buffer } = .ok n out) := by
  obtain ⟨bs, hv, hposition⟩ := derives_of_run_get h
  refine ⟨fun policy hpolicy => ?_, fun hfinite => ?_⟩
  · obtain ⟨out, hput, hout⟩ := put_of_derives hv policy
    refine ⟨_, out, hput, fun rest => ?_⟩
    rw [hout]
    exact run_get_of_derives rest (derives_bytes hv hpolicy)
  · obtain ⟨out, hput, hout⟩ := put_of_derives hv .lossless
    have hsize : out.out.size = (v.tree.bytes .lossless).length := by
      rw [← hout, Array.length_toList]
    refine ⟨_, out, hput, hsize, ?_, fun input' s' h' => ?_, fun v' s' h' => ?_⟩
    · rw [hposition]
      exact length_bytes_le hv hfinite
    · obtain ⟨bs', hv', hposition'⟩ := derives_of_run_get h'
      rw [hposition']
      exact length_bytes_le hv' hfinite
    -- reading back what was written gives the same value, and so the same bytes
    · have hread := run_get_of_derives [] (@derives_bytes _ _ _ hv .lossless (by decide))
      rw [List.append_nil, ← hout, h'] at hread
      obtain ⟨rfl, -⟩ := EStateM.Result.ok.inj hread
      exact hput

/-- An array of 5 and a text, with a wide tag for each of the three. -/
theorem put_get_canonical_wide :
    ∃ v s, Get.run (get defaultDepth) .memory
        [0xdd, 0, 0, 0, 2, 0xcf, 0, 0, 0, 0, 0, 0, 0, 5, 0xd9, 1, 0x61, 0xc0] = .ok v s ∧
      s.position = 17 ∧ v.Finite ∧
      (∃ out, v.put .lossless { kind := .buffer } = .ok 4 out ∧
        out.out.toList = [0x92, 5, 0xa1, 0x61]) ∧
      ∀ input' s', Get.run (get defaultDepth) .memory input' = .ok v s' → 4 ≤ s'.position := by
  refine ⟨.array [.number (.int ⟨5, by decide⟩), .string [0x61]], _, rfl, rfl, by decide,
    ⟨_, rfl, rfl⟩, ?_⟩
  obtain ⟨n, out, hput, -, -, hshortest, -⟩ := (@put_get_canonical defaultDepth
    [0xdd, 0, 0, 0, 2, 0xcf, 0, 0, 0, 0, 0, 0, 0, 5, 0xd9, 1, 0x61, 0xc0] _ _ rfl).2 (by decide)
  obtain ⟨rfl, -⟩ := EStateM.Result.ok.inj hput
  exact hshortest

end Canonical

end Value

end MsgPack
