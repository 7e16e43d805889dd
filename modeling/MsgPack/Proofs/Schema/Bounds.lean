import MsgPack.Proofs.Cursor.Course
import MsgPack.Proofs.Schema.Scanning

/-!
Reading is bounded by what there is to read. What an input announces is not to be
trusted, and no reader does more for it than its bytes pay for: a value that is
read, an element that is passed over, a scope that is closed early, and the
containers of the core types.
-/

namespace MsgPack

open Cursor (headerOf places Reachable Readable Skips Drains skip closeInnermost)

/-- Repetitions that succeed take as many bytes as each of them has to. -/
theorem Scans.le_of_collect {α : Type} {streams : Prop} {least k : Nat} {step : Get α}
    (h : Scans streams least step) {s t : Source} {xs : List α} (hs : s.Admitted streams)
    (hrun : MsgPack.collect step k s = .ok xs t) : k * least ≤ s.left.length := by
  induction k generalizing s t xs with
  | zero => simp
  | succ k ih =>
      rw [collect_succ] at hrun
      obtain ⟨a, u, hstep, hrest⟩ := bind_eq_ok_iff.mp hrun
      obtain ⟨ys, v, hcollect, -⟩ := bind_eq_ok_iff.mp hrest
      cases h s s s hs hs (List.prefix_refl _) with
      | ok b c n hleast hn hok _ =>
          cases hok.symm.trans hstep
          have hle := ih (s := s.advance n) hs hcollect
          rw [Source.left_advance, List.length_drop] at hle
          rw [Nat.succ_mul]
          omega
      | short b c c' n e _ hlt hle _ _ => exact absurd hle (Nat.not_le.mpr hlt)
      | error e e' c c' herror _ _ => cases herror.symm.trans hstep

namespace Codec

variable {α β : Type} {streams : Prop} {m n : Nat} {c : Codec α} {d : Codec β} {s t : Source}

/-- A list that is read was announced with no more elements than there were
bytes. -/
theorem backed_of_list {xs : List α} (hc : Scans streams (n + 1) c.get) (hs : s.Admitted streams)
    (h : c.list.get s = .ok xs t) : s.Backed := by
  obtain ⟨k, u, hheader, hrest⟩ := bind_eq_ok_iff.mp h
  have hheader : headerOf .array s = .ok k u := hheader
  obtain ⟨_, _, -, -, rfl⟩ := Cursor.opening_of_headerOf hheader
  have hle := hc.le_of_collect (s := s.advance _) hs hrest
  rw [Nat.mul_succ] at hle
  exact Source.backed_of_headerOf hheader (Nat.le_of_add_left_le hle)

theorem backed_of_map {cmp : α → α → Ordering} {es : List (α × β)}
    (hc : Scans streams (m + 1) c.get) (hd : Scans streams (n + 1) d.get)
    (hs : s.Admitted streams) (h : (map cmp c d).get s = .ok es t) : s.Backed := by
  obtain ⟨k, u, hheader, hrest⟩ := bind_eq_ok_iff.mp h
  have hheader : headerOf .map s = .ok k u := hheader
  obtain ⟨_, _, -, -, rfl⟩ := Cursor.opening_of_headerOf hheader
  obtain ⟨es', v, hentries, -⟩ := bind_eq_ok_iff.mp hrest
  have hentry : Scans streams (m + 1 + (n + 1)) (do return (← c.get, ← d.get)) :=
    hc.bind fun a => hd.map fun b => (a, b)
  have hle := hentry.le_of_collect (s := s.advance _) hs hentries
  have htwo : k * 2 ≤ k * (m + 1 + (n + 1)) := Nat.mul_le_mul_left k (by omega)
  refine Source.backed_of_headerOf hheader ?_
  show 2 * k ≤ _
  omega

end Codec

/-- Reading is bounded by what there is to read. Reading a value takes a finite
course and is paid for by the bytes it finds, whatever the input and whatever
nesting is allowed; a value that is read has no more nodes than it takes bytes,
and is nested no deeper than was allowed. Passing over an element is paid for in
the same way, wherever calls have led the cursor, unless no element may be read
there, and so is passing over what is left of a scope to close it. Lists and maps
of the core types cannot be read either if they announce more than comes behind
their header. -/
theorem reading_is_bounded :
    (∀ (storage : Storage) (m : Nat) (kind : SourceKind) (input : Bytes),
      PaidFor (Course storage m (.ofBytes kind input)) (.ofBytes kind input)
        ((storage.value m).run kind input) ∧
      ∀ v t, (storage.value m).run kind input = .ok v t →
        ∃ n ≤ input.length, t = (Source.ofBytes kind input).advance n ∧ v.nodes ≤ n ∧
          v.height ≤ m) ∧
    (∀ c : Cursor, Reachable c →
      (Readable c.frames → PaidFor (Skips c) c.source (skip c)) ∧
      (¬Readable c.frames → ∃ misuse, skip c = .error (.readerContext misuse) c) ∧
      (c.frames ≠ [] → PaidFor (Drains c) c.source (closeInnermost false c))) ∧
    ∀ {α β : Type} {streams : Prop} {m n : Nat} {c : Codec α} {d : Codec β},
      c.Made streams (m + 1) → d.Made streams (n + 1) →
      ∀ (kind : SourceKind) (input : Bytes), kind = .memory ∨ streams →
        ¬(Source.ofBytes kind input).Backed →
        (∃ e t, c.list.get.run kind input = .error e t) ∧
        ∀ cmp, ∃ e t, (Codec.map cmp c d).get.run kind input = .error e t := by
  refine ⟨fun storage m kind input => ?_, fun c hc => ?_, ?_⟩
  · exact ⟨storage.paidFor_value m _, fun v t h => Storage.nodes_le_of_value h⟩
  · refine ⟨hc.paidFor_skip, fun h => ?_, fun h => ?_⟩
    · obtain ⟨misuse, hmisuse⟩ := Cursor.checkReadable_of_not_readable h
      exact ⟨misuse, bind_of_error hmisuse⟩
    · obtain ⟨f, outer, hframes⟩ := List.exists_cons_of_ne_nil h
      exact hc.paidFor_closeInnermost hframes
  · intro α β streams m n c d hc hd kind input hs hbacked
    have hs : (Source.ofBytes kind input).Admitted streams := hs
    refine ⟨?_, fun cmp => ?_⟩
    · cases hrun : c.list.get.run kind input with
      | error e t => exact ⟨e, t, rfl⟩
      | ok xs t => exact absurd (Codec.backed_of_list hc.scans hs hrun) hbacked
    · cases hrun : (Codec.map cmp c d).get.run kind input with
      | error e t => exact ⟨e, t, rfl⟩
      | ok es t => exact absurd (Codec.backed_of_map hc.scans hd.scans hs hrun) hbacked

/-- Four billion nils of which one is there, passed over and read as a list. -/
theorem reading_is_bounded_nils :
    let input : Bytes := [0xdd, 0xff, 0xff, 0xff, 0xff, 0xc0]
    let cursor : Cursor := { source := .ofBytes .memory input }
    ¬(Source.ofBytes .memory input).Backed ∧ Reachable cursor ∧
      (∃ e d, skip cursor = .error e d) ∧
      ∃ e t, ((Schema.nil).codec rfl).list.get.run .memory input = .error e t := by
  intro input cursor
  have hbacked : ¬(Source.ofBytes .memory input).Backed := by
    intro h
    have hle : 0xffffffff ≤ 1 := h .array 0xffffffff ⟨.memory, [0xc0], 5⟩ rfl
    omega
  have hreachable : Reachable cursor := .fresh .widening Value.defaultDepth false .memory input
  have hnil : Codec.Made False 1 ((Schema.nil).codec rfl) := .schema rfl False.elim
  refine ⟨hbacked, hreachable, ?_, ?_⟩
  · have hpaid := (reading_is_bounded.2.1 cursor hreachable).1 trivial
    obtain ⟨ps, hskips⟩ := hpaid.takes
    exact hpaid.fails ps _ hskips _ hskips.mem hbacked
  · exact (reading_is_bounded.2.2 hnil hnil .memory input (.inl rfl) hbacked).1

end MsgPack
