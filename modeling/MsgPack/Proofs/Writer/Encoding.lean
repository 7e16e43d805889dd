import MsgPack.Proofs.Value.Decode
import MsgPack.Proofs.Writer.Output

/-!
The encodings of trees. The bytes of a tree derive the value that the tree
stands for, and a telling puts out the bytes of what it tells.
-/

namespace MsgPack

open Grammar (Numeral TextHeader BinaryHeader ExtensionHeader ArrayHeader MapHeader Derives
  DerivesElems DerivesEntries)
open Put (maxLength)

namespace Tree

mutual

def bytes (policy : EncodePolicy) : Tree → Bytes
  | nil => Put.bytes Put.nil
  | bool b => Put.bytes (Put.bool b)
  | int t i => Put.bytes (policy.int t i)
  | float p x => Put.bytes (policy.float p x)
  | text bs => Put.bytes (Put.text bs)
  | extension e => Put.bytes (Put.extension e)
  | binary content => Put.bytes (Put.binaryHeader content.length) ++ content
  | array elems => Put.bytes (Put.arrayHeader elems.length) ++ bytesElems policy elems
  | map entries => Put.bytes (Put.mapHeader entries.length) ++ bytesEntries policy entries

def bytesElems (policy : EncodePolicy) : List Tree → Bytes
  | [] => []
  | t :: ts => bytes policy t ++ bytesElems policy ts

def bytesEntries (policy : EncodePolicy) : List (Tree × Tree) → Bytes
  | [] => []
  | (k, v) :: es => bytes policy k ++ (bytes policy v ++ bytesEntries policy es)

end

mutual

/-- The value that a reader finds in the bytes of a tree. Numbers keep nothing
of their types. -/
def value (policy : EncodePolicy) : Tree → OwnedValue
  | nil => .nil
  | bool b => .bool b
  | int _ i => .number (.ofInt i)
  | float p x => .number (policy.numberOf p x)
  | text bs => .string bs
  | extension e => .extension e.type e.data
  | binary content => .binary content
  | array elems => .array (valueElems policy elems)
  | map entries => .map (valueEntries policy entries)

def valueElems (policy : EncodePolicy) : List Tree → List OwnedValue
  | [] => []
  | t :: ts => value policy t :: valueElems policy ts

def valueEntries (policy : EncodePolicy) : List (Tree × Tree) → List (OwnedValue × OwnedValue)
  | [] => []
  | (k, v) :: es => (value policy k, value policy v) :: valueEntries policy es

end

mutual

/-- How deep containers nest in a tree. -/
def height : Tree → Nat
  | array elems => heightElems elems + 1
  | map entries => heightEntries entries + 1
  | _ => 0

def heightElems : List Tree → Nat
  | [] => 0
  | t :: ts => max (height t) (heightElems ts)

def heightEntries : List (Tree × Tree) → Nat
  | [] => 0
  | (k, v) :: es => max (height k) (max (height v) (heightEntries es))

end

mutual

/-- Whether `P` holds of a tree and of every tree inside it. -/
def Everywhere (P : Tree → Prop) : Tree → Prop
  | array elems => P (array elems) ∧ EverywhereElems P elems
  | map entries => P (map entries) ∧ EverywhereEntries P entries
  | t => P t

def EverywhereElems (P : Tree → Prop) : List Tree → Prop
  | [] => True
  | t :: ts => Everywhere P t ∧ EverywhereElems P ts

def EverywhereEntries (P : Tree → Prop) : List (Tree × Tree) → Prop
  | [] => True
  | (k, v) :: es => Everywhere P k ∧ Everywhere P v ∧ EverywhereEntries P es

end

/-- Whether the length of a tree itself can be announced. -/
def Short : Tree → Prop
  | text bs => bs.length ≤ maxLength
  | extension e => e.data.length ≤ maxLength
  | binary content => content.length ≤ maxLength
  | array elems => elems.length ≤ maxLength
  | map entries => entries.length ≤ maxLength
  | _ => True

def Spelled : Tree → Prop
  | text bs => Utf8.isValid bs
  | _ => True

instance : DecidablePred Short
  | text bs | binary bs => inferInstanceAs (Decidable (bs.length ≤ maxLength))
  | extension e => inferInstanceAs (Decidable (e.data.length ≤ maxLength))
  | array elems => inferInstanceAs (Decidable (elems.length ≤ maxLength))
  | map entries => inferInstanceAs (Decidable (entries.length ≤ maxLength))
  | nil | bool _ | int .. | float .. => .isTrue trivial

instance : DecidablePred Spelled
  | text bs => inferInstanceAs (Decidable (Utf8.isValid bs = true))
  | nil | bool _ | int .. | float .. | extension _ | binary _ | array _ | map _ => .isTrue trivial

mutual

def decideEverywhere (P : Tree → Prop) [DecidablePred P] : (t : Tree) → Decidable (Everywhere P t)
  | array elems =>
    have := decideEverywhereElems P elems
    inferInstanceAs (Decidable (_ ∧ _))
  | map entries =>
    have := decideEverywhereEntries P entries
    inferInstanceAs (Decidable (_ ∧ _))
  | nil | bool _ | int .. | float .. | text _ | extension _ | binary _ =>
    inferInstanceAs (Decidable (P _))

def decideEverywhereElems (P : Tree → Prop) [DecidablePred P] :
    (ts : List Tree) → Decidable (EverywhereElems P ts)
  | [] => .isTrue trivial
  | t :: ts =>
    have := decideEverywhere P t
    have := decideEverywhereElems P ts
    inferInstanceAs (Decidable (_ ∧ _))

def decideEverywhereEntries (P : Tree → Prop) [DecidablePred P] :
    (es : List (Tree × Tree)) → Decidable (EverywhereEntries P es)
  | [] => .isTrue trivial
  | (k, v) :: es =>
    have := decideEverywhere P k
    have := decideEverywhere P v
    have := decideEverywhereEntries P es
    inferInstanceAs (Decidable (_ ∧ _ ∧ _))

end

instance (P : Tree → Prop) [DecidablePred P] : DecidablePred (Everywhere P) := decideEverywhere P

section Lists

variable (policy : EncodePolicy)

theorem bytesElems_eq (ts : List Tree) : bytesElems policy ts = ts.flatMap (bytes policy) := by
  induction ts with
  | nil => rfl
  | cons t ts ih => rw [bytesElems, ih, List.flatMap_cons]

theorem valueElems_eq (ts : List Tree) : valueElems policy ts = ts.map (value policy) := by
  induction ts with
  | nil => rfl
  | cons t ts ih => rw [valueElems, ih, List.map_cons]

theorem length_valueEntries (es : List (Tree × Tree)) :
    (valueEntries policy es).length = es.length := by
  induction es with
  | nil => rfl
  | cons e es ih => rw [valueEntries, List.length_cons, ih, List.length_cons]

theorem everywhereElems_iff {P : Tree → Prop} {ts : List Tree} :
    EverywhereElems P ts ↔ ∀ t ∈ ts, t.Everywhere P := by
  induction ts with
  | nil => simp [EverywhereElems]
  | cons t ts ih => rw [EverywhereElems, ih, List.forall_mem_cons]

theorem heightElems_le_iff {ts : List Tree} {depth : Nat} :
    heightElems ts ≤ depth ↔ ∀ t ∈ ts, t.height ≤ depth := by
  induction ts with
  | nil => simp [heightElems]
  | cons t ts ih => rw [heightElems, Nat.max_le, ih, List.forall_mem_cons]

end Lists

/-! ### Bytes of trees -/

section Derives

variable {policy : EncodePolicy}

theorem bytes_header {put : Put Nat} {header : Bytes} (h : put = Put.runAll [header]) :
    Put.bytes put = header := by
  rw [h, Put.bytes_runAll]
  simp

theorem bytes_int (t : IntType) (i : t.Value) : Numeral ((int t i).bytes policy) (.ofInt i) := by
  obtain ⟨bs, hput, hn⟩ := policy.int_eq t i
  show Numeral (Put.bytes (policy.int t i)) _
  rwa [bytes_header hput]

theorem bytes_float (p : Precision) (x : FloatBits p) :
    Numeral ((float p x).bytes policy) (policy.numberOf p x) := by
  obtain ⟨bs, hput, hn⟩ := policy.float_eq p x
  show Numeral (Put.bytes (policy.float p x)) _
  rwa [bytes_header hput]

theorem bytes_text {bs : Bytes} (h : Short (text bs)) :
    ∃ header, TextHeader header bs.length ∧ (text bs).bytes policy = header ++ bs := by
  obtain ⟨header, hput, hheader⟩ := Put.text_eq h
  refine ⟨header, hheader, ?_⟩
  show Put.bytes (Put.text bs) = _
  rw [hput, Put.bytes_runAll]
  simp

theorem bytes_extension {e : Extension} (h : Short (extension e)) :
    ∃ header, ExtensionHeader header e.data.length ∧
      (extension e).bytes policy = header ++ e.type.toUInt8 :: e.data := by
  obtain ⟨_, hput, ⟨header, hheader, rfl⟩⟩ := Put.extension_eq h
  refine ⟨header, hheader, ?_⟩
  show Put.bytes (Put.extension e) = _
  rw [hput, Put.bytes_runAll]
  simp

theorem bytes_binary {content : Bytes} (h : Short (binary content)) :
    ∃ header, BinaryHeader header content.length ∧
      (binary content).bytes policy = header ++ content := by
  obtain ⟨header, hput, hheader⟩ := Put.binaryHeader_eq h
  refine ⟨header, hheader, ?_⟩
  show Put.bytes (Put.binaryHeader content.length) ++ content = _
  rw [bytes_header hput]

theorem bytes_array {elems : List Tree} (h : Short (array elems)) :
    ∃ header, ArrayHeader header elems.length ∧
      (array elems).bytes policy = header ++ bytesElems policy elems := by
  obtain ⟨header, hput, hheader⟩ := Put.arrayHeader_eq h
  refine ⟨header, hheader, ?_⟩
  show Put.bytes (Put.arrayHeader elems.length) ++ bytesElems policy elems = _
  rw [bytes_header hput]

theorem bytes_map {entries : List (Tree × Tree)} (h : Short (map entries)) :
    ∃ header, MapHeader header entries.length ∧
      (map entries).bytes policy = header ++ bytesEntries policy entries := by
  obtain ⟨header, hput, hheader⟩ := Put.mapHeader_eq h
  refine ⟨header, hheader, ?_⟩
  show Put.bytes (Put.mapHeader entries.length) ++ bytesEntries policy entries = _
  rw [bytes_header hput]

mutual

/-- The bytes of a tree derive its value. -/
theorem derives {t : Tree} {depth : Nat} (hshort : t.Everywhere Short)
    (hspelled : t.Everywhere Spelled) (hdepth : t.height ≤ depth) :
    Derives depth (t.bytes policy) (t.value policy) := by
  cases t with
  | nil => exact .nil
  | bool b => cases b <;> first | exact .false | exact .true
  | int t i => exact .number (bytes_int t i)
  | float p x => exact .number (bytes_float p x)
  | text bs =>
      obtain ⟨header, hheader, hbytes⟩ := bytes_text hshort
      rw [hbytes]
      exact .string hheader hspelled
  | extension e =>
      obtain ⟨header, hheader, hbytes⟩ := bytes_extension hshort
      rw [hbytes]
      exact .extension hheader
  | binary content =>
      obtain ⟨header, hheader, hbytes⟩ := bytes_binary hshort
      rw [hbytes]
      exact .binary hheader
  | array elems =>
      obtain ⟨header, hheader, hbytes⟩ := bytes_array hshort.1
      -- a container has a height, and so there is a level for it
      obtain ⟨depth, rfl⟩ := Nat.exists_eq_succ_of_ne_zero (Nat.ne_zero_of_lt hdepth)
      rw [hbytes]
      refine .array ?_ (derivesElems hshort.2 hspelled.2 (Nat.le_of_succ_le_succ hdepth))
      rwa [valueElems_eq, List.length_map]
  | map entries =>
      obtain ⟨header, hheader, hbytes⟩ := bytes_map hshort.1
      obtain ⟨depth, rfl⟩ := Nat.exists_eq_succ_of_ne_zero (Nat.ne_zero_of_lt hdepth)
      rw [hbytes]
      refine .map ?_ (derivesEntries hshort.2 hspelled.2 (Nat.le_of_succ_le_succ hdepth))
      rwa [length_valueEntries]
termination_by structural t

theorem derivesElems {ts : List Tree} {depth : Nat} (hshort : EverywhereElems Short ts)
    (hspelled : EverywhereElems Spelled ts) (hdepth : heightElems ts ≤ depth) :
    DerivesElems depth (bytesElems policy ts) (valueElems policy ts) := by
  cases ts with
  | nil => exact .nil
  | cons t ts =>
      rw [heightElems, Nat.max_le] at hdepth
      exact .cons (derives hshort.1 hspelled.1 hdepth.1)
        (derivesElems hshort.2 hspelled.2 hdepth.2)
termination_by structural ts

theorem derivesEntries {es : List (Tree × Tree)} {depth : Nat}
    (hshort : EverywhereEntries Short es) (hspelled : EverywhereEntries Spelled es)
    (hdepth : heightEntries es ≤ depth) :
    DerivesEntries depth (bytesEntries policy es) (valueEntries policy es) := by
  cases es with
  | nil => exact .nil
  | cons e es =>
      obtain ⟨k, v⟩ := e
      rw [heightEntries, Nat.max_le, Nat.max_le] at hdepth
      exact .cons (derives hshort.1 hspelled.1 hdepth.1)
        (derives hshort.2.1 hspelled.2.1 hdepth.2.1)
        (derivesEntries hshort.2.2 hspelled.2.2 hdepth.2.2)
termination_by structural es

end

end Derives

end Tree

/-! ### Bytes of tellings -/

section Tellings

variable {policy : EncodePolicy} {P : Tree → Prop} {Q : Event → Prop}

theorem flatMap_chunks (chunks : List Bytes) :
    (chunks.map Event.chunk).flatMap (Event.bytes policy) = chunks.flatten := by
  induction chunks with
  | nil => rfl
  | cons c chunks ih =>
      have hchunk : Event.bytes policy (.chunk c) = c := by
        have hput : Event.put policy (.chunk c) = Put.runAll [c] := Put.run_eq_runAll c
        rw [Event.bytes, hput, Put.bytes_runAll]
        simp
      rw [List.map_cons, List.flatMap_cons, ih, hchunk, List.flatten_cons]

theorem flatMap_container (first last : Event) (es : List Event)
    (hlast : ∀ policy, last.put policy = pure 0) :
    (first :: (es ++ [last])).flatMap (Event.bytes policy) =
      Event.bytes policy first ++ es.flatMap (Event.bytes policy) := by
  have hempty : Event.bytes policy last = [] := by
    rw [Event.bytes]
    rw [hlast, ← Put.runAll_nil, Put.bytes_runAll]
    rfl
  simp [hempty]

mutual

/-- A telling puts out the bytes of its tree. -/
theorem Tells.flatMap_bytes {es : List Event} {t : Tree} (h : Tells es t) :
    es.flatMap (Event.bytes policy) = t.bytes policy := by
  cases h with
  | nil => simp [Event.bytes, Event.put, Tree.bytes]
  | bool b => simp [Event.bytes, Event.put, Tree.bytes]
  | int t i => simp [Event.bytes, Event.put, Tree.bytes]
  | float p x => simp [Event.bytes, Event.put, Tree.bytes]
  | text bs => simp [Event.bytes, Event.put, Tree.bytes]
  | char hcp => simp [Event.bytes, Event.put, Tree.bytes, hcp]
  | extension e => simp [Event.bytes, Event.put, Tree.bytes]
  | binary chunks =>
      rw [flatMap_container _ _ _ fun _ => rfl, flatMap_chunks, Tree.bytes]
      rfl
  | array hs =>
      rw [flatMap_container _ _ _ fun _ => rfl, TellsElems.flatMap_bytes hs, Tree.bytes]
      rfl
  | map hs =>
      rw [flatMap_container _ _ _ fun _ => rfl, TellsEntries.flatMap_bytes hs, Tree.bytes]
      rfl
termination_by sizeOf t

theorem TellsElems.flatMap_bytes {es : List Event} {ts : List Tree} (h : TellsElems es ts) :
    es.flatMap (Event.bytes policy) = Tree.bytesElems policy ts := by
  cases h with
  | nil => rfl
  | cons ht hts =>
      rw [List.flatMap_append, Tells.flatMap_bytes ht, TellsElems.flatMap_bytes hts,
        Tree.bytesElems]
termination_by sizeOf ts

theorem TellsEntries.flatMap_bytes {es : List Event} {entries : List (Tree × Tree)}
    (h : TellsEntries es entries) :
    es.flatMap (Event.bytes policy) = Tree.bytesEntries policy entries := by
  cases h with
  | nil => rfl
  | cons hk hv hs =>
      -- announcing a key puts nothing out
      have hkey : Event.bytes policy .key = [] := rfl
      rw [List.flatMap_cons, hkey, List.nil_append, List.flatMap_append, List.flatMap_append,
        Tells.flatMap_bytes hk, Tells.flatMap_bytes hv, TellsEntries.flatMap_bytes hs,
        Tree.bytesEntries]
termination_by sizeOf entries

end

mutual

/-- What every event has, every tree has, if a tree has it from the event that
begins it. -/
theorem Tells.everywhere {es : List Event} {t : Tree} (h : Tells es t)
    (hfirst : ∀ {e es t}, Tells (e :: es) t → Q e → P t) (hes : ∀ e ∈ es, Q e) :
    t.Everywhere P := by
  cases h with
  | array hs =>
      refine ⟨hfirst (.array hs) (hes _ List.mem_cons_self), ?_⟩
      exact TellsElems.everywhere hs hfirst fun e he =>
        hes e (List.mem_cons_of_mem _ (List.mem_append_left _ he))
  | map hs =>
      refine ⟨hfirst (.map hs) (hes _ List.mem_cons_self), ?_⟩
      exact TellsEntries.everywhere hs hfirst fun e he =>
        hes e (List.mem_cons_of_mem _ (List.mem_append_left _ he))
  | nil => exact hfirst .nil (hes _ List.mem_cons_self)
  | bool b => exact hfirst (.bool b) (hes _ List.mem_cons_self)
  | int t i => exact hfirst (.int t i) (hes _ List.mem_cons_self)
  | float p x => exact hfirst (.float p x) (hes _ List.mem_cons_self)
  | text bs => exact hfirst (.text bs) (hes _ List.mem_cons_self)
  | char hcp => exact hfirst (.char hcp) (hes _ List.mem_cons_self)
  | extension e => exact hfirst (.extension e) (hes _ List.mem_cons_self)
  | binary chunks => exact hfirst (.binary chunks) (hes _ List.mem_cons_self)
termination_by sizeOf t

theorem TellsElems.everywhere {es : List Event} {ts : List Tree} (h : TellsElems es ts)
    (hfirst : ∀ {e es t}, Tells (e :: es) t → Q e → P t) (hes : ∀ e ∈ es, Q e) :
    Tree.EverywhereElems P ts := by
  cases h with
  | nil => exact trivial
  | cons ht hts =>
      refine ⟨Tells.everywhere ht hfirst ?_, TellsElems.everywhere hts hfirst ?_⟩
      · exact fun e he => hes e (List.mem_append_left _ he)
      · exact fun e he => hes e (List.mem_append_right _ he)
termination_by sizeOf ts

theorem TellsEntries.everywhere {es : List Event} {entries : List (Tree × Tree)}
    (h : TellsEntries es entries) (hfirst : ∀ {e es t}, Tells (e :: es) t → Q e → P t)
    (hes : ∀ e ∈ es, Q e) : Tree.EverywhereEntries P entries := by
  cases h with
  | nil => exact trivial
  | cons hk hv hs =>
      have hes := (List.forall_mem_cons.mp hes).2
      refine ⟨Tells.everywhere hk hfirst ?_, Tells.everywhere hv hfirst ?_,
        TellsEntries.everywhere hs hfirst ?_⟩
      · exact fun e he => hes e (List.mem_append_left _ he)
      · exact fun e he => hes e (List.mem_append_right _ (List.mem_append_left _ he))
      · exact fun e he => hes e (List.mem_append_right _ (List.mem_append_right _ he))
termination_by sizeOf entries

end

theorem short_of_writable {e : Event} {es : List Event} {t : Tree} (h : Tells (e :: es) t)
    (he : e.Writable) : t.Short := by
  cases h with
  | char hcp =>
      have hlen := Utf8.length_of_encode hcp
      show _ ≤ maxLength
      rw [maxLength]
      omega
  | text bs => exact he.2
  | extension x => exact he.2
  | binary chunks => exact he.2
  | array hs => exact he.2
  | map hs => exact he.2
  | _ => exact trivial

/-- Whether a text is valid as it is told. -/
def Event.Spelled : Event → Prop
  | .text bs => Utf8.isValid bs
  | _ => True

theorem spelled_of_spelled {e : Event} {es : List Event} {t : Tree} (h : Tells (e :: es) t)
    (he : e.Spelled) : t.Spelled := by
  cases h with
  | char hcp => exact Utf8.isValid_of_encode hcp
  | text bs => exact he
  | _ => exact trivial

theorem writable_container {first last : Event} {es : List Event} (hfirst : first.Writable)
    (hlast : last.Writable) (hes : ∀ e ∈ es, e.Writable) :
    ∀ e ∈ first :: (es ++ [last]), e.Writable := by
  intro e he
  rw [List.mem_cons, List.mem_append, List.mem_singleton] at he
  rcases he with rfl | he | rfl
  · exact hfirst
  · exact hes e he
  · exact hlast

mutual

/-- The events of a tree whose lengths can be announced can be written. -/
theorem Tells.writable {es : List Event} {t : Tree} (h : Tells es t)
    (ht : t.Everywhere Tree.Short) : ∀ e ∈ es, e.Writable := by
  cases h with
  | binary chunks =>
      refine writable_container ⟨rfl, ht⟩ ⟨rfl, trivial⟩ fun e he => ?_
      obtain ⟨c, -, rfl⟩ := List.mem_map.mp he
      exact ⟨rfl, trivial⟩
  | array hs =>
      exact writable_container ⟨rfl, ht.1⟩ ⟨rfl, trivial⟩ (TellsElems.writable hs ht.2)
  | map hs =>
      exact writable_container ⟨rfl, ht.1⟩ ⟨rfl, trivial⟩ (TellsEntries.writable hs ht.2)
  | char hcp =>
      refine List.forall_mem_singleton.mpr ⟨?_, trivial⟩
      simp [Event.refusal?, hcp]
  | text bs => exact List.forall_mem_singleton.mpr ⟨rfl, ht⟩
  | extension x => exact List.forall_mem_singleton.mpr ⟨rfl, ht⟩
  | _ => exact List.forall_mem_singleton.mpr ⟨rfl, trivial⟩
termination_by sizeOf t

theorem TellsElems.writable {es : List Event} {ts : List Tree} (h : TellsElems es ts)
    (hts : Tree.EverywhereElems Tree.Short ts) : ∀ e ∈ es, e.Writable := by
  cases h with
  | nil => simp
  | cons ht hs =>
      intro e he
      rcases List.mem_append.mp he with he | he
      · exact Tells.writable ht hts.1 e he
      · exact TellsElems.writable hs hts.2 e he
termination_by sizeOf ts

theorem TellsEntries.writable {es : List Event} {entries : List (Tree × Tree)}
    (h : TellsEntries es entries) (hentries : Tree.EverywhereEntries Tree.Short entries) :
    ∀ e ∈ es, e.Writable := by
  cases h with
  | nil => simp
  | cons hk hv hs =>
      intro e he
      rw [List.mem_cons, List.mem_append, List.mem_append] at he
      rcases he with rfl | he | he | he
      · exact ⟨rfl, trivial⟩
      · exact Tells.writable hk hentries.1 e he
      · exact Tells.writable hv hentries.2.1 e he
      · exact TellsEntries.writable hs hentries.2.2 e he
termination_by sizeOf entries

end

end Tellings

end MsgPack
