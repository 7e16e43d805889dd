import MsgPack.Proofs.Schema.Fits

/-!
Values back on the wire. Writing a value writes the bytes of its tree, and the
tree of a value that was read fits, so that whatever was read can be written.
-/

namespace MsgPack

open Grammar (Header TextHeader BinaryHeader ExtensionHeader ArrayHeader MapHeader Derives
  DerivesElems DerivesEntries)
open Put (maxLength runAll)

/-! ### Writing -/

namespace Put

theorem binary_put {bs : Bytes} (h : bs.length ≤ maxLength) :
    binary bs = runAll [bytes (binaryHeader bs.length), bs] := by
  obtain ⟨header, hput, -⟩ := binaryHeader_eq h
  exact binary_runs (Event.put_single hput)

end Put

namespace Value

variable {policy : EncodePolicy}

theorem writes_number (n : Number) : Put.Writes (policy.number n) (n.tree.bytes policy) := by
  cases n with
  | int i => exact @Event.writes_put policy (Event.number (.int i)) trivial
  | float x => exact @Event.writes_put policy (Event.number (.float x)) trivial

mutual

/-- Writing a value hands over the bytes of its tree. -/
theorem writes_put (v : OwnedValue) (hv : v.tree.Everywhere Tree.Short) :
    Put.Writes (v.put policy) (v.tree.bytes policy) := by
  cases v with
  | nil => exact @Event.writes_put policy .nil trivial
  | bool b => exact @Event.writes_put policy (.bool b) trivial
  | number n => exact writes_number n
  | string bs => exact @Event.writes_put policy (.text bs) hv
  | extension type bs => exact @Event.writes_put policy (.extension ⟨type, bs⟩) hv
  | binary bs =>
      exact ⟨[Put.bytes (Put.binaryHeader bs.length), bs], Put.binary_put hv,
        by simp [tree, Tree.bytes]⟩
  | array elems =>
      have hlen := length_elemTrees elems
      have hheader := @Event.writes_put policy (.beginArray (some elems.length)) (hlen ▸ hv.1)
      rw [tree, Tree.bytes, hlen]
      exact writes_putElems elems hv.2 hheader
  | map entries =>
      have hlen := length_entryTrees entries
      have hheader := @Event.writes_put policy (.beginMap (some entries.length)) (hlen ▸ hv.1)
      rw [tree, Tree.bytes, hlen]
      exact writes_putEntries entries hv.2 hheader
termination_by structural v

theorem writes_putElems (vs : List OwnedValue)
    (hvs : Tree.EverywhereElems Tree.Short (elemTrees vs)) {put : Put Nat} {bs : Bytes}
    (h : Put.Writes put bs) :
    Put.Writes (do let n ← put; putElems policy vs n)
      (bs ++ Tree.bytesElems policy (elemTrees vs)) := by
  cases vs with
  | nil =>
      simp only [putElems, bind_pure, elemTrees, Tree.bytesElems, List.append_nil]
      exact h
  | cons v vs =>
      have hnext := writes_putElems vs hvs.2 (h.next (writes_put v hvs.1))
      simp only [bind_assoc, pure_bind, List.append_assoc] at hnext
      exact hnext
termination_by structural vs

theorem writes_putEntries (es : List (OwnedValue × OwnedValue))
    (hes : Tree.EverywhereEntries Tree.Short (entryTrees es)) {put : Put Nat} {bs : Bytes}
    (h : Put.Writes put bs) :
    Put.Writes (do let n ← put; putEntries policy es n)
      (bs ++ Tree.bytesEntries policy (entryTrees es)) := by
  cases es with
  | nil =>
      simp only [putEntries, bind_pure, entryTrees, Tree.bytesEntries, List.append_nil]
      exact h
  | cons e es =>
      obtain ⟨k, v⟩ := e
      have hentry := (h.next (writes_put k hes.1)).next (writes_put v hes.2.1)
      have hnext := writes_putEntries es hes.2.2 hentry
      simp only [bind_assoc, pure_bind, List.append_assoc] at hnext
      exact hnext
termination_by structural es

end

end Value

/-! ### What was read -/

namespace Value

variable {depth : Nat} {v : OwnedValue}

/-- What was read stands at the front of the input. -/
theorem derives_of_run_get {input : Bytes} {s : Source}
    (h : Get.run (get depth) .memory input = .ok v s) :
    ∃ bs, Derives depth bs v ∧ s.position = bs.length := by
  obtain ⟨bs, rest, -, hv, rfl⟩ := (accepts_get depth).sound h
  exact ⟨bs, hv, Nat.zero_add _⟩

theorem run_get_of_derives {bs : Bytes} (rest : Bytes) (h : Derives depth bs v) :
    Get.run (get depth) .memory (bs ++ rest) =
      .ok v { kind := .memory, left := rest, position := bs.length } := by
  refine ((accepts_get depth).complete (s := .ofBytes .memory (bs ++ rest)) rfl h).trans ?_
  simp [Source.advance, Source.ofBytes]

end Value

/-- A header with at most four digits announces no more than can be announced. -/
theorem length_of_header {fixed sized : List (UInt8 × Nat)} {bs : Bytes} {n : Nat}
    (hfixed : ∀ e ∈ fixed, e.2 ≤ maxLength) (hsized : ∀ e ∈ sized, e.2 ≤ 4)
    (h : Header fixed sized bs n) : n ≤ maxLength := by
  cases h with
  | fixed htag => exact hfixed _ htag
  | @sized tag width digits htag hdigits =>
      have hwidth : digits.length ≤ 4 := hdigits ▸ hsized _ htag
      have hlt := Bytes.toNat_lt digits
      have hle : 256 ^ digits.length ≤ 256 ^ 4 := Nat.pow_le_pow_right (by decide) hwidth
      rw [maxLength]
      omega

namespace Value

mutual

/-- The tree of a value that was read fits. -/
theorem fits_of_derives {depth : Nat} {bs : Bytes} {v : OwnedValue} (h : Derives depth bs v) :
    v.tree.Fits depth := by
  cases h with
  | nil => exact .scalar trivial trivial rfl
  | false => exact .scalar trivial trivial rfl
  | true => exact .scalar trivial trivial rfl
  | @number _ _ n _ => exact fits_number n
  | string hheader hvalid =>
      exact .scalar (length_of_header (by decide) (by decide) hheader) hvalid rfl
  | binary hheader =>
      exact .scalar (length_of_header (by decide) (by decide) hheader) trivial rfl
  | extension hheader =>
      exact .scalar (length_of_header (by decide) (by decide) hheader) trivial rfl
  | array hheader helems =>
      refine Tree.fits_array ?_ (fits_of_derivesElems helems)
      rw [length_elemTrees]
      exact length_of_header (by decide) (by decide) hheader
  | map hheader hentries =>
      refine Tree.fits_map ?_ (fits_of_derivesEntries hentries)
      rw [length_entryTrees]
      exact length_of_header (by decide) (by decide) hheader
termination_by sizeOf v

theorem fits_of_derivesElems {depth : Nat} {bs : Bytes} {vs : List OwnedValue}
    (h : DerivesElems depth bs vs) : ∀ t ∈ elemTrees vs, t.Fits depth := by
  cases h with
  | nil => exact fun t ht => nomatch ht
  | cons hv hvs => exact List.forall_mem_cons.mpr ⟨fits_of_derives hv, fits_of_derivesElems hvs⟩
termination_by sizeOf vs

theorem fits_of_derivesEntries {depth : Nat} {bs : Bytes} {es : List (OwnedValue × OwnedValue)}
    (h : DerivesEntries depth bs es) : ∀ e ∈ entryTrees es, e.1.Fits depth ∧ e.2.Fits depth := by
  cases h with
  | nil => exact fun e he => nomatch he
  | cons hk hv hes =>
      exact List.forall_mem_cons.mpr
        ⟨⟨fits_of_derives hk, fits_of_derives hv⟩, fits_of_derivesEntries hes⟩
termination_by sizeOf es

end

section Rewriting

variable {depth : Nat} {bs : Bytes} {v : OwnedValue} (h : Derives depth bs v)

include h

/-- Into a fresh buffer a value that was read is written as the bytes of its
tree. -/
theorem put_of_derives (policy : EncodePolicy) :
    ∃ out, v.put policy { kind := .buffer } = .ok (v.tree.bytes policy).length out ∧
      out.out.toList = v.tree.bytes policy :=
  ⟨_, (writes_put v (fits_of_derives h).short).buffer rfl, by simp [Sink.append]⟩

/-- These bytes derive the value again, where floats are kept as they are. -/
theorem derives_bytes {policy : EncodePolicy} (hpolicy : policy ≠ .aggressive) :
    Derives depth (v.tree.bytes policy) v := by
  have hbytes : Derives depth (v.tree.bytes policy) (v.tree.value policy) :=
    (fits_of_derives h).derives
  rwa [value_tree hpolicy] at hbytes

end Rewriting

end Value

/-! ### Values of trees -/

namespace Tree

variable {policy : EncodePolicy}

mutual

/-- A value nests as deep as the tree that it is the value of. -/
theorem height_value (t : Tree) : (t.value policy).tree.height = t.height := by
  cases t with
  | float p x =>
      rw [value, Value.tree]
      cases policy.numberOf p x <;> rfl
  | array elems => exact congrArg (· + 1) (heightElems_value elems)
  | map entries => exact congrArg (· + 1) (heightEntries_value entries)
  | _ => rfl
termination_by structural t

theorem heightElems_value (ts : List Tree) :
    heightElems (Value.elemTrees (valueElems policy ts)) = heightElems ts := by
  cases ts with
  | nil => rfl
  | cons t ts =>
      rw [valueElems, Value.elemTrees, heightElems, heightElems, height_value t,
        heightElems_value ts]
termination_by structural ts

theorem heightEntries_value (es : List (Tree × Tree)) :
    heightEntries (Value.entryTrees (valueEntries policy es)) = heightEntries es := by
  cases es with
  | nil => rfl
  | cons e es =>
      obtain ⟨k, v⟩ := e
      rw [valueEntries, Value.entryTrees, heightEntries, heightEntries, height_value k,
        height_value v, heightEntries_value es]
termination_by structural es

end

mutual

/-- The texts of a tree are those of its value. -/
theorem spelled_of_value (t : Tree) (h : (t.value policy).tree.Everywhere Spelled) :
    t.Everywhere Spelled := by
  cases t with
  | text bs => exact h
  | array elems => exact ⟨trivial, spelledElems_of_value elems h.2⟩
  | map entries => exact ⟨trivial, spelledEntries_of_value entries h.2⟩
  | _ => exact trivial
termination_by structural t

theorem spelledElems_of_value (ts : List Tree)
    (h : EverywhereElems Spelled (Value.elemTrees (valueElems policy ts))) :
    EverywhereElems Spelled ts := by
  cases ts with
  | nil => exact trivial
  | cons t ts => exact ⟨spelled_of_value t h.1, spelledElems_of_value ts h.2⟩
termination_by structural ts

theorem spelledEntries_of_value (es : List (Tree × Tree))
    (h : EverywhereEntries Spelled (Value.entryTrees (valueEntries policy es))) :
    EverywhereEntries Spelled es := by
  cases es with
  | nil => exact trivial
  | cons e es =>
      obtain ⟨k, v⟩ := e
      exact ⟨spelled_of_value k h.1, spelled_of_value v h.2.1, spelledEntries_of_value es h.2.2⟩
termination_by structural es

end

end Tree

end MsgPack
