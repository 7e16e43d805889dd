import MsgPack.Archive
import MsgPack.Proofs.Cursor.InScope
import MsgPack.Proofs.Schema.Leaves
import MsgPack.Proofs.Schema.Shapes
import MsgPack.Proofs.Value.Encoding

/-!
Typed reading depends on the value that is read, not on the bytes that spell it.
The shapes of an archive make of a value what their parts make of the values
inside, and so the law for every schema is one induction over schemas.
-/

namespace MsgPack

open Cursor (Step ByValue Silent Within inScope announceKey elemLeft)
open Grammar (Derives DerivesElems DerivesEntries)

section Shapes

variable {α : Type} {levels : Nat}

/-! ### Tuples and structs -/

/-- A tuple depends on its elements, of which there have to be as many as it
has. -/
theorem byValue_restoreTuple {n : Nat} {elems : Step α}
    (h : ∀ (vs : List OwnedValue) (levels : Nat), vs.length = n →
      Within elems (.opened .array · n) (.opened .array · 0) levels (DerivesElems levels · vs)) :
    ByValue (restoreTuple n elems) := by
  have hinScope : restoreTuple n elems = inScope .array (do checkArity n (← elemLeft); elems) := by
    simp only [restoreTuple, inScope, bind_assoc]
  rw [hinScope]
  refine .array fun vs levels => .elemLeft ?_
  by_cases hlen : vs.length = n
  · have harity : (checkArity n vs.length : Step Unit) = pure () := if_pos hlen
    rw [harity, pure_bind, hlen]
    exact h vs levels hlen
  · have harity : (checkArity n vs.length : Step Unit) = throw _ := if_neg hlen
    rw [harity]
    exact .throw _

/-- The fields of a struct are read from the entries, in their order and as
often as they stand there. -/
theorem within_restoreFields {field? : α → Bytes → Option (Step α)}
    (hfield : ∀ x name field, field? x name = some field → ByValue field)
    (es : List (OwnedValue × OwnedValue)) (x : α) :
    Within (restoreFields field? es.length x) (.opened .map · (2 * es.length)) (.opened .map · 0)
      levels (DerivesEntries levels · es) := by
  induction es generalizing x with
  | nil => exact (Within.pure x).mono fun _ => Cursor.empty_of_entries
  | cons e es ih =>
      obtain ⟨k, v⟩ := e
      rw [List.length_cons, restoreFields]
      refine Within.announceKey ?_
      refine ((ByValue.text.asKey k es.length).bind fun name => ?_).mono
        fun _ => Cursor.then_of_entries
      cases hname : field? x name with
      | some field => exact ((hfield x name field hname).asValue v es.length).bind ih
      | none => exact (Within.skip v es.length).bind fun _ => ih x

theorem byValue_restoreStruct {n : Nat} {elems : Step α} {field? : α → Bytes → Option (Step α)}
    (helems : ∀ (vs : List OwnedValue) (levels : Nat), vs.length = n →
      Within elems (.opened .array · n) (.opened .array · 0) levels (DerivesElems levels · vs))
    (hfield : ∀ x name field, field? x name = some field → ByValue field) (x : α) :
    ByValue (restoreStruct n elems field? x) := by
  refine .typeNext fun e => ?_
  split
  · have hinScope : (do
        let key ← Cursor.beginScope .map
        let x ← restoreFields field? ((← elemLeft) / 2) x
        Cursor.endScope .map key
        return x : Step α) =
          inScope .map (do restoreFields field? ((← elemLeft) / 2) x) := by
      simp only [inScope, bind_assoc]
    rw [hinScope]
    refine .map_entries fun es levels => .elemLeft ?_
    rw [Nat.mul_div_cancel_left _ Nat.two_pos]
    exact within_restoreFields hfield es x
  · exact byValue_restoreTuple helems
  · exact .throw _

/-! ### Unions -/

theorem byValue_payloadOf {alternative? : Bytes → Bool → Option (Step α)}
    (h : ∀ name step, alternative? name true = some step → ByValue step) (name : Bytes) :
    ByValue (payloadOf alternative? name) := by
  rw [payloadOf]
  cases halt : alternative? name true with
  | some step => exact h name step halt
  | none => exact .throw _

theorem within_entry {alternative? : Bytes → Bool → Option (Step α)}
    (h : ∀ name step, alternative? name true = some step → ByValue step)
    (es : List (OwnedValue × OwnedValue)) :
    Within (unionIn alternative? .map) (.opened .map · (2 * es.length)) (.opened .map · 0) levels
      (DerivesEntries levels · es) := by
  refine .elemLeft ?_
  by_cases hlen : 2 * es.length = 2
  · obtain ⟨e, rfl⟩ := List.length_eq_one_iff.mp (Nat.eq_of_mul_eq_mul_left Nat.two_pos hlen)
    obtain ⟨k, v⟩ := e
    rw [if_neg (not_not_intro hlen)]
    refine Within.announceKey (n := 0) ?_
    refine ((ByValue.text.asKey k 0).bind fun name =>
      (byValue_payloadOf h name).asValue v 0).mono fun bs hbs => ?_
    obtain ⟨key, _, rfl, hk, val, tail, rfl, hv, htail⟩ := Cursor.then_of_entries hbs
    obtain rfl := Cursor.empty_of_entries htail
    exact ⟨key, val, by rw [List.append_nil], hk, hv⟩
  · rw [if_pos hlen]
    exact .throw _

theorem within_pair {alternative? : Bytes → Bool → Option (Step α)}
    (h : ∀ name step, alternative? name true = some step → ByValue step) (vs : List OwnedValue) :
    Within (unionIn alternative? .array) (.opened .array · vs.length) (.opened .array · 0) levels
      (DerivesElems levels · vs) := by
  refine .elemLeft ?_
  by_cases hlen : vs.length = 2
  · obtain ⟨k, tail, rfl⟩ := List.exists_cons_of_length_eq_add_one hlen
    obtain ⟨v, rfl⟩ := List.length_eq_one_iff.mp (Nat.succ.inj hlen)
    rw [if_neg (not_not_intro hlen)]
    refine ((ByValue.text.inArray k 1).bind fun name =>
      (byValue_payloadOf h name).inArray v 0).mono fun bs hbs => ?_
    obtain ⟨key, tail, rfl, hk, htail⟩ := Cursor.then_of_elems hbs
    obtain ⟨val, tail, rfl, hv, htail⟩ := Cursor.then_of_elems htail
    obtain rfl := Cursor.empty_of_elems htail
    exact ⟨key, val, by rw [List.append_nil], hk, hv⟩
  · rw [if_pos hlen]
    exact .throw _

theorem byValue_restoreVariant {alternative? : Bytes → Bool → Option (Step α)}
    (hpayload : ∀ name step, alternative? name true = some step → ByValue step)
    (hname : ∀ name step, alternative? name false = some step → Silent step) :
    ByValue (restoreVariant alternative?) := by
  rw [restoreVariant_eq]
  refine .typeNext fun e => ?_
  cases e with
  | string =>
      refine ByValue.text.andThen fun name => ?_
      rw [nameOf]
      cases halt : alternative? name false with
      | some step => exact hname name step halt
      | none => exact .throw _
  | map => exact .map_entries fun es levels => within_entry hpayload es
  | array => exact .array fun vs levels => within_pair hpayload vs
  | _ => exact .throw _

end Shapes

/-! ### Schemas -/

theorem Content.silent_restore (c : Content) (name : Bytes) : Silent (c.restore name false) := by
  cases c with
  | unit => exact .pure ()
  | item s => exact .throw _

/-- A name that stands alone leads to an answer without anything being read. -/
theorem Alternatives.silent_restore (a : Alternatives) {name : Bytes} {step : Step a.Val}
    (h : a.restore? name false = some step) : Silent step := by
  cases a with
  | last own c =>
      obtain ⟨-, h⟩ := Option.ite_none_right_eq_some.mp h
      obtain rfl := Option.some.inj h
      exact c.silent_restore name
  | cons own c rest =>
      rw [Alternatives.restore?] at h
      split at h
      · obtain rfl := Option.some.inj h
        exact (c.silent_restore name).map Sum.inl
      · obtain ⟨step, hstep, rfl⟩ := Option.map_eq_some_iff.mp h
        exact (rest.silent_restore hstep).map Sum.inr

mutual

/-- What is read over an object depends on the value that is read, if the
objects own what they hold. -/
theorem Schema.byValue_restore (s : Schema) (hs : s.owning = true) (x : s.Val) :
    ByValue (s.restore x) := by
  cases s with
  | value storage =>
      obtain rfl := of_decide_eq_true hs
      exact .value
  | list s => exact (s.byValue_restore hs s.fresh).elements
  | map k v =>
      obtain ⟨hk, hv⟩ := Bool.and_eq_true_iff.mp hs
      exact ((k.byValue_restore hk k.fresh).entries (v.byValue_restore hv v.fresh)).map
        (mapOfEntries k.compare)
  | option s =>
      refine .typeNext fun e => ?_
      cases e with
      | null => exact (ByValue.leaf Get.byValue_nil).map fun _ => none
      | _ => exact (s.byValue_restore hs (Option.getD x s.fresh)).map some
  | tuple r => exact byValue_restoreTuple (r.within_restore hs x)
  | struct r =>
      exact byValue_restoreStruct (r.within_restore hs x) (fun _ _ _ => r.byValue_restoreField hs) x
  | variant a =>
      exact byValue_restoreVariant (fun _ _ => a.byValue_restore hs) fun _ _ => a.silent_restore
  | _ =>
      obtain ⟨β, reader, look, -, -, hreader, hrestore⟩ := Schema.restore_leaf rfl x
      refine ((ByValue.leaf (hreader hs)).andThen fun b => .ofExcept (look b)).congr fun c hc => ?_
      rw [hrestore c, hc]

/-- The items of a tuple are read from its elements. -/
theorem Row.within_restore (r : Row) (hr : r.owning = true) (x : r.Val) (vs : List OwnedValue)
    (levels : Nat) (hlen : vs.length = r.length) :
    Within (r.restore x) (.opened .array · r.length) (.opened .array · 0) levels
      (DerivesElems levels · vs) := by
  cases r with
  | nil =>
      obtain rfl := List.length_eq_zero_iff.mp hlen
      exact (Within.pure ()).mono fun _ => Cursor.empty_of_elems
  | cons name s rest =>
      obtain ⟨hitem, hrest⟩ := Bool.and_eq_true_iff.mp hr
      obtain ⟨v, vs, rfl⟩ := List.exists_cons_of_length_eq_add_one hlen
      have hitems := fun y => (rest.within_restore hrest x.2 vs levels (Nat.succ.inj hlen)).map
        fun xs => ((y, xs) : (Row.cons name s rest).Val)
      exact (((s.byValue_restore hitem x.1).inArray v rest.length).bind hitems).mono
        fun _ => Cursor.then_of_elems

theorem Row.byValue_restoreField (r : Row) (hr : r.owning = true) {x : r.Val} {name : Bytes}
    {field : Step r.Val} (h : r.restoreField? x name = some field) : ByValue field := by
  cases r with
  | nil => cases h
  | cons own s rest =>
      obtain ⟨hitem, hrest⟩ := Bool.and_eq_true_iff.mp hr
      obtain ⟨x, xs⟩ := x
      rw [Row.restoreField?] at h
      split at h
      · obtain rfl := Option.some.inj h
        exact (s.byValue_restore hitem x).map (·, xs)
      · obtain ⟨step, hstep, rfl⟩ := Option.map_eq_some_iff.mp h
        exact (rest.byValue_restoreField hrest hstep).map (x, ·)

theorem Alternatives.byValue_restore (a : Alternatives) (ha : a.owning = true) {name : Bytes}
    {step : Step a.Val} (h : a.restore? name true = some step) : ByValue step := by
  cases a with
  | last own c =>
      obtain ⟨-, h⟩ := Option.ite_none_right_eq_some.mp h
      obtain rfl := Option.some.inj h
      exact c.byValue_restore ha name
  | cons own c rest =>
      obtain ⟨hc, hrest⟩ := Bool.and_eq_true_iff.mp ha
      rw [Alternatives.restore?] at h
      split at h
      · obtain rfl := Option.some.inj h
        exact (c.byValue_restore hc name).map Sum.inl
      · obtain ⟨step, hstep, rfl⟩ := Option.map_eq_some_iff.mp h
        exact (rest.byValue_restore hrest hstep).map Sum.inr

theorem Content.byValue_restore (c : Content) (hc : c.owning = true) (name : Bytes) :
    ByValue (c.restore name true) := by
  cases c with
  | unit => exact .throw _
  | item s => exact s.byValue_restore hc s.fresh

end

/-! ### From bytes and from values -/

section MapError

variable {α : Type} {x : Except Error α}

theorem ok_of_mapError {a : α} (h : x.mapError Error.kind = .ok a) : x = .ok a := by
  cases x with
  | ok b => exact congrArg Except.ok (Except.ok.inj h)
  | error e => cases h

theorem error_of_mapError {k : ErrorKind} (h : x.mapError Error.kind = .error k) :
    ∃ e, x = .error e ∧ e.kind = k := by
  cases x with
  | ok b => cases h
  | error e => exact ⟨e, rfl, Except.error.inj h⟩

end MapError

namespace Schema

variable {s : Schema} {v : OwnedValue}

/-- One outcome for all that spells a value, on any source. -/
theorem exists_outcome (hs : s.owning = true) (v : OwnedValue) :
    ∃ r, ∀ (kind : SourceKind) (bs rest : Bytes), Derives Value.defaultDepth bs v →
      Ended (s.restoreFrom .widening kind (bs ++ rest))
        (fun c => c.source = (Source.ofBytes kind (bs ++ rest)).advance bs.length) r := by
  obtain ⟨r, hr⟩ := s.byValue_restore hs s.fresh v Value.defaultDepth
  refine ⟨r, fun kind bs rest h => ?_⟩
  have hends := hr [] trivial (.ofBytes .widening kind (bs ++ rest)) bs rest h
    ⟨rfl, rfl, Nat.le_of_eq (Nat.zero_add _), rfl⟩
  cases hends with
  | ok hrun ht =>
      obtain ⟨id, rfl⟩ := ht
      exact .ok hrun rfl
  | error hrun hk => exact .error hrun hk

/-- What is made of a value is what is made of the bytes that it is written
as. -/
theorem ofValue_of_derives {bs : Bytes} (h : Derives Value.defaultDepth bs v)
    {r : Except ErrorKind s.Val}
    (hr : ∀ (kind : SourceKind) (bs rest : Bytes), Derives Value.defaultDepth bs v →
      Ended (s.restoreFrom .widening kind (bs ++ rest))
        (fun c => c.source = (Source.ofBytes kind (bs ++ rest)).advance bs.length) r) :
    (s.ofValue v).mapError Error.kind = r := by
  obtain ⟨out, hput, hout⟩ := Value.put_of_derives h .exact
  have hrewritten : Derives Value.defaultDepth out.out.toList v := by
    rw [hout]
    exact Value.derives_bytes h (by decide)
  have hends := hr .stream _ [] hrewritten
  rw [List.append_nil] at hends
  have hrun : EStateM.run (Value.put .exact v) { kind := .buffer } = .ok _ out := hput
  rw [ofValue, hrun]
  dsimp only
  cases hends with
  | ok hrestore ht =>
      rw [hrestore]
      rfl
  | error hrestore hk =>
      rw [hrestore, ← hk]
      rfl

/-- Typed reading depends on the value alone. Where the front of an input is read
as a value, reading it into an object that owns its content and making the
object from the value give the same object, with as much of the input consumed,
or fail with errors of the same kind. So do all inputs that are read as that
value, however wide their tags are. -/
theorem restore_depends_on_value (hs : s.owning = true) {input : Bytes} {t : Source}
    (h : Get.run (Value.get Value.defaultDepth) .memory input = .ok v t) :
    ((∃ x c, s.restoreFrom .widening .memory input = .ok x c ∧ c.source = t ∧
        s.ofValue v = .ok x) ∨
      ∃ e c e', s.restoreFrom .widening .memory input = .error e c ∧
        s.ofValue v = .error e' ∧ e.kind = e'.kind) ∧
    ∀ input' t', Get.run (Value.get Value.defaultDepth) .memory input' = .ok v t' →
      (∃ x c c', s.restoreFrom .widening .memory input = .ok x c ∧
        s.restoreFrom .widening .memory input' = .ok x c' ∧ c'.source = t') ∨
      ∃ e c e' c', s.restoreFrom .widening .memory input = .error e c ∧
        s.restoreFrom .widening .memory input' = .error e' c' ∧ e.kind = e'.kind := by
  obtain ⟨r, hr⟩ := exists_outcome hs v
  have hended : ∀ input t, Get.run (Value.get Value.defaultDepth) .memory input = .ok v t →
      Ended (s.restoreFrom .widening .memory input) (fun c => c.source = t) r := by
    intro input t h
    obtain ⟨bs, rest, hl, hv, rfl⟩ := (accepts_get _).sound h
    have hinput : input = bs ++ rest := hl
    rw [hinput]
    exact hr .memory bs rest hv
  obtain ⟨bs, hv, -⟩ := Value.derives_of_run_get h
  have hvalue := ofValue_of_derives hv hr
  cases hended input t h with
  | @ok x c hrun ht =>
      refine ⟨.inl ⟨x, c, hrun, ht, ok_of_mapError hvalue⟩, fun input' t' h' => ?_⟩
      cases hended input' t' h' with
      | @ok _ c' hrun' ht' => exact .inl ⟨x, c, c', hrun, hrun', ht'⟩
  | @error k e c hrun hk =>
      obtain ⟨e', hfail, hk'⟩ := error_of_mapError hvalue
      refine ⟨.inr ⟨e, c, e', hrun, hfail, hk.trans hk'.symm⟩, fun input' t' h' => ?_⟩
      cases hended input' t' h' with
      | @error _ e'' c' hrun' hk'' => exact .inr ⟨e, c, e'', c', hrun, hrun', hk.trans hk''.symm⟩

/-- A small integer and a text. -/
def label : Schema := .tuple (.cons [] (.intZero .u8) (.cons [] (.text .owned []) .nil))

def wideLabel : Bytes := [0xdc, 0, 2, 0xcd, 0, 7, 0xda, 0, 1, 0x78, 0xc0]

def narrowLabel : Bytes := [0x92, 7, 0xa1, 0x78]

/-- The same label comes of both. -/
theorem restore_depends_on_value_label :
    label.owning = true ∧ ∃ (v : OwnedValue) (t t' : Source),
      Get.run (Value.get Value.defaultDepth) .memory wideLabel = .ok v t ∧
      Get.run (Value.get Value.defaultDepth) .memory narrowLabel = .ok v t' ∧
      ∃ x c c', label.restoreFrom .widening .memory wideLabel = .ok x c ∧
        label.restoreFrom .widening .memory narrowLabel = .ok x c' ∧ c'.source = t' := by
  refine ⟨rfl, .array [.number (.int ⟨7, by decide⟩), .string [0x78]], _, _, rfl, rfl, ?_⟩
  obtain ⟨-, hboth⟩ := @restore_depends_on_value label _ rfl wideLabel _ rfl
  obtain hsame | ⟨e, c, -, -, hfail, -⟩ := hboth narrowLabel _ rfl
  · exact hsame
  · have hread : ∃ x c, label.restoreFrom .widening .memory wideLabel = .ok x c := ⟨_, _, rfl⟩
    obtain ⟨x, c', hread⟩ := hread
    cases hread.symm.trans hfail

end Schema

end MsgPack
