import MsgPack.Proofs.Value.Decode

/-!
Documents: what an input is made of, whatever it means. A document is a
sequence of nodes, each with the bytes that spell it. Tags may be of any width,
and texts need not be valid. A spot in a document is kept as the nodes on either
side of it, among its siblings and among those of every container around it.
-/

namespace MsgPack

open Grammar (Numeral TextHeader BinaryHeader ExtensionHeader ArrayHeader MapHeader Derives
  DerivesElems DerivesEntries)

/-- The entities that hold no others. -/
inductive Leaf : Bytes → Prop
  | nil : Leaf [0xc0]
  | bool {bs : Bytes} {b : Bool} (h : Get.BoolForm bs b) : Leaf bs
  | number {bs : Bytes} {n : Number} (h : Numeral bs n) : Leaf bs
  | text {header content : Bytes} (h : TextHeader header content.length) :
      Leaf (header ++ content)
  | binary {header content : Bytes} (h : BinaryHeader header content.length) :
      Leaf (header ++ content)
  | extension {header content : Bytes} {type : Int8}
      (h : ExtensionHeader header content.length) : Leaf (header ++ type.toUInt8 :: content)

/-- What opens a container of so many items. Those of a map are its keys and
values. -/
def Container.Opening : Container → Language Nat
  | .array => ArrayHeader
  | .map => MapHeader.image (2 * ·)

inductive Node where
  | leaf (bytes : Bytes)
  | container (kind : Container) (header : Bytes) (items : List Node)

namespace Node

mutual

def bytes : Node → Bytes
  | leaf bs => bs
  | container _ header items => header ++ bytesAll items

def bytesAll : List Node → Bytes
  | [] => []
  | n :: ns => bytes n ++ bytesAll ns

end

mutual

/-- The number of containers inside each other. -/
def height : Node → Nat
  | leaf _ => 0
  | container _ _ items => heightAll items + 1

def heightAll : List Node → Nat
  | [] => 0
  | n :: ns => max (height n) (heightAll ns)

end

mutual

def WellFormed : Node → Prop
  | leaf bs => Leaf bs
  | container kind header items => kind.Opening header items.length ∧ WellFormedAll items

def WellFormedAll : List Node → Prop
  | [] => True
  | n :: ns => WellFormed n ∧ WellFormedAll ns

end

@[simp] theorem bytesAll_append (ns ms : List Node) :
    bytesAll (ns ++ ms) = bytesAll ns ++ bytesAll ms := by
  induction ns with
  | nil => rfl
  | cons n ns ih => simp [bytesAll, ih]

theorem wellFormedAll_append {ns ms : List Node} :
    WellFormedAll (ns ++ ms) ↔ WellFormedAll ns ∧ WellFormedAll ms := by
  induction ns with
  | nil => simp [WellFormedAll]
  | cons n ns ih => simp [WellFormedAll, ih, and_assoc]

/-! ### Values as nodes -/

mutual

/-- Whatever derives a value is the bytes of a well-formed node. -/
theorem of_derives {depth : Nat} {bs : Bytes} {v : OwnedValue} (h : Derives depth bs v) :
    ∃ n : Node, n.bytes = bs ∧ n.WellFormed ∧ n.height ≤ depth := by
  cases h with
  | nil => exact ⟨leaf _, rfl, .nil, Nat.zero_le _⟩
  | false => exact ⟨leaf _, rfl, .bool .false, Nat.zero_le _⟩
  | true => exact ⟨leaf _, rfl, .bool .true, Nat.zero_le _⟩
  | number hn => exact ⟨leaf _, rfl, .number hn, Nat.zero_le _⟩
  | string hheader hvalid => exact ⟨leaf _, rfl, .text hheader, Nat.zero_le _⟩
  | binary hheader => exact ⟨leaf _, rfl, .binary hheader, Nat.zero_le _⟩
  | extension hheader => exact ⟨leaf _, rfl, .extension hheader, Nat.zero_le _⟩
  | array hheader helems =>
      obtain ⟨ns, hlen, rfl, hns, hheight⟩ := of_derivesElems helems
      exact ⟨container .array _ ns, rfl, ⟨hlen ▸ hheader, hns⟩, Nat.succ_le_succ hheight⟩
  | map hheader hentries =>
      obtain ⟨ns, hlen, rfl, hns, hheight⟩ := of_derivesEntries hentries
      exact ⟨container .map _ ns, rfl, ⟨⟨_, hheader, hlen⟩, hns⟩, Nat.succ_le_succ hheight⟩

theorem of_derivesElems {depth : Nat} {bs : Bytes} {vs : List OwnedValue}
    (h : DerivesElems depth bs vs) :
    ∃ ns : List Node, ns.length = vs.length ∧ bytesAll ns = bs ∧ WellFormedAll ns ∧
      heightAll ns ≤ depth := by
  cases h with
  | nil => exact ⟨[], rfl, rfl, trivial, Nat.zero_le _⟩
  | cons hv hvs =>
      obtain ⟨n, rfl, hn, hheight⟩ := of_derives hv
      obtain ⟨ns, hlen, rfl, hns, hheights⟩ := of_derivesElems hvs
      exact ⟨n :: ns, congrArg (· + 1) hlen, rfl, ⟨hn, hns⟩, Nat.max_le.mpr ⟨hheight, hheights⟩⟩

theorem of_derivesEntries {depth : Nat} {bs : Bytes} {es : List (OwnedValue × OwnedValue)}
    (h : DerivesEntries depth bs es) :
    ∃ ns : List Node, ns.length = 2 * es.length ∧ bytesAll ns = bs ∧ WellFormedAll ns ∧
      heightAll ns ≤ depth := by
  cases h with
  | nil => exact ⟨[], rfl, rfl, trivial, Nat.zero_le _⟩
  | cons hk hv hes =>
      obtain ⟨k, rfl, hkey, hkeyHeight⟩ := of_derives hk
      obtain ⟨v, rfl, hval, hvalHeight⟩ := of_derives hv
      obtain ⟨ns, hlen, rfl, hns, hheights⟩ := of_derivesEntries hes
      refine ⟨k :: v :: ns, ?_, rfl, ⟨hkey, hval, hns⟩, ?_⟩
      · simp only [List.length_cons, hlen]
        omega
      · exact Nat.max_le.mpr ⟨hkeyHeight, Nat.max_le.mpr ⟨hvalHeight, hheights⟩⟩

end

mutual

/-- Whether the texts are valid, inside containers too. -/
def TextsValid : Node → Prop
  | leaf bs => ∀ header content, bs = header ++ content → TextHeader header content.length →
      Utf8.isValid content
  | container _ _ items => TextsValidAll items

def TextsValidAll : List Node → Prop
  | [] => True
  | n :: ns => TextsValid n ∧ TextsValidAll ns

end

mutual

/-- A well-formed node is the bytes of a value, if its texts are valid. -/
theorem derives_of_valid (n : Node) {depth : Nat} (hn : n.WellFormed) (hvalid : n.TextsValid)
    (hheight : n.height ≤ depth) : ∃ v, Derives depth n.bytes v := by
  cases n with
  | leaf bs =>
      cases (show Leaf bs from hn) with
      | nil => exact ⟨_, .nil⟩
      | bool hb =>
          cases hb with
          | false => exact ⟨_, .false⟩
          | true => exact ⟨_, .true⟩
      | number hnumber => exact ⟨_, .number hnumber⟩
      | text hheader => exact ⟨_, .string hheader (hvalid _ _ rfl hheader)⟩
      | binary hheader => exact ⟨_, .binary hheader⟩
      | extension hheader => exact ⟨_, .extension hheader⟩
  | container kind header items =>
      obtain ⟨inside, rfl⟩ : ∃ inside, depth = inside + 1 :=
        Nat.exists_eq_succ_of_ne_zero (Nat.ne_of_gt (Nat.lt_of_lt_of_le (Nat.succ_pos _) hheight))
      have hinside : heightAll items ≤ inside := Nat.le_of_succ_le_succ hheight
      obtain ⟨hopening, hitems⟩ := hn
      cases kind with
      | array =>
          obtain ⟨vs, hlen, hvs⟩ := derivesElems_of_valid items hitems hvalid hinside
          exact ⟨_, .array (hlen ▸ hopening) hvs⟩
      | map =>
          obtain ⟨count, hheader, hcount⟩ := hopening
          have hcount : items.length = 2 * count := hcount
          obtain ⟨es, hlen, hes⟩ := derivesEntries_of_valid items hcount hitems hvalid hinside
          exact ⟨_, .map (hlen ▸ hheader) hes⟩

theorem derivesElems_of_valid (ns : List Node) {depth : Nat} (hns : WellFormedAll ns)
    (hvalid : TextsValidAll ns) (hheight : heightAll ns ≤ depth) :
    ∃ vs, vs.length = ns.length ∧ DerivesElems depth (bytesAll ns) vs := by
  cases ns with
  | nil => exact ⟨[], rfl, .nil⟩
  | cons n ns =>
      have hheights := Nat.max_le.mp hheight
      obtain ⟨v, hv⟩ := derives_of_valid n hns.1 hvalid.1 hheights.1
      obtain ⟨vs, hlen, hvs⟩ := derivesElems_of_valid ns hns.2 hvalid.2 hheights.2
      exact ⟨v :: vs, congrArg (· + 1) hlen, .cons hv hvs⟩

theorem derivesEntries_of_valid (ns : List Node) {depth count : Nat}
    (hcount : ns.length = 2 * count) (hns : WellFormedAll ns) (hvalid : TextsValidAll ns)
    (hheight : heightAll ns ≤ depth) :
    ∃ es, es.length = count ∧ DerivesEntries depth (bytesAll ns) es := by
  cases ns with
  | nil =>
      obtain rfl : count = 0 := by
        rw [List.length_nil] at hcount
        omega
      exact ⟨[], rfl, .nil⟩
  | cons k ns =>
      cases ns with
      | nil =>
          simp only [List.length_cons, List.length_nil] at hcount
          omega
      | cons v ns =>
          obtain ⟨hkey, hrest⟩ := Nat.max_le.mp hheight
          obtain ⟨hval, hheights⟩ := Nat.max_le.mp hrest
          obtain ⟨key, hk⟩ := derives_of_valid k hns.1 hvalid.1 hkey
          obtain ⟨val, hv⟩ := derives_of_valid v hns.2.1 hvalid.2.1 hval
          have hcount' : ns.length = 2 * (count - 1) := by
            simp only [List.length_cons] at hcount
            omega
          obtain ⟨es, hlen, hes⟩ :=
            derivesEntries_of_valid ns hcount' hns.2.2 hvalid.2.2 hheights
          refine ⟨(key, val) :: es, ?_, .cons hk hv hes⟩
          simp only [List.length_cons] at hcount ⊢
          omega

end

end Node

/-! ### Spots -/

/-- A spot between neighbouring nodes: those before it and after it, and the
spot of the container around them. -/
inductive Spot where
  | root (passed todo : List Node)
  | inside (outer : Spot) (kind : Container) (header : Bytes) (passed todo : List Node)

namespace Spot

open Node (bytesAll WellFormedAll)

/-- The document with nodes put in at the spot. -/
def fill : Spot → List Node → List Node
  | root passed todo, nodes => passed ++ nodes ++ todo
  | inside outer kind header passed todo, nodes =>
    outer.fill [.container kind header (passed ++ nodes ++ todo)]

def doc (s : Spot) : List Node := s.fill []

/-- What has been passed when the spot is reached. -/
def before : Spot → Bytes
  | root passed _ => bytesAll passed
  | inside outer _ header passed _ => outer.before ++ header ++ bytesAll passed

/-- What comes next at the spot. -/
def after : Spot → Bytes
  | root _ todo => bytesAll todo
  | inside outer _ _ _ todo => bytesAll todo ++ outer.after

/-- The number of containers around the spot. -/
def depth : Spot → Nat
  | root .. => 0
  | inside outer .. => outer.depth + 1

/-- Whether the siblings are keys and values of a map, and a key comes next. -/
def AtKey : Spot → Prop
  | root .. => False
  | inside _ kind _ passed _ => kind = .map ∧ passed.length % 2 = 0

/-- Whether the container around the spot, if there is one, goes on. -/
def GoesOn : Spot → Prop
  | root .. => True
  | inside _ _ _ _ todo => todo ≠ []

/-- The spot with a node put in right after it. -/
def ahead : Spot → Node → Spot
  | root passed todo, n => root passed (n :: todo)
  | inside outer kind header passed todo, n => inside outer kind header passed (n :: todo)

/-- The spot with a node put in right before it. -/
def behind : Spot → Node → Spot
  | root passed todo, n => root (passed ++ [n]) todo
  | inside outer kind header passed todo, n => inside outer kind header (passed ++ [n]) todo

variable {s : Spot} {n : Node}

theorem bytes_fill (s : Spot) (nodes : List Node) :
    bytesAll (s.fill nodes) = s.before ++ bytesAll nodes ++ s.after := by
  induction s generalizing nodes with
  | root passed todo => simp [fill, before, after]
  | inside outer kind header passed todo ih =>
      simp [fill, ih, before, after, bytesAll, Node.bytes]

/-- The bytes before a spot and after it are those of the document. -/
theorem bytes_doc (s : Spot) : bytesAll s.doc = s.before ++ s.after := by
  rw [doc, bytes_fill, bytesAll, List.append_nil]

theorem wellFormed_fill {nodes : List Node} (h : WellFormedAll (s.fill nodes)) :
    WellFormedAll nodes := by
  induction s generalizing nodes with
  | root passed todo =>
      rw [fill, Node.wellFormedAll_append, Node.wellFormedAll_append] at h
      exact h.1.2
  | inside outer kind header passed todo ih =>
      have hitems := (ih h).1.2
      rw [Node.wellFormedAll_append, Node.wellFormedAll_append] at hitems
      exact hitems.1.2

/-- The container around a spot in a well-formed document is well-formed. -/
theorem wellFormed_inside {outer : Spot} {kind : Container} {header : Bytes}
    {passed todo : List Node} (h : WellFormedAll (inside outer kind header passed todo).doc) :
    kind.Opening header (passed.length + todo.length) ∧ WellFormedAll todo := by
  obtain ⟨⟨hopening, hitems⟩, -⟩ := wellFormed_fill (s := outer) h
  rw [List.append_nil, Node.wellFormedAll_append] at hitems
  rw [List.append_nil, List.length_append] at hopening
  exact ⟨hopening, hitems.2⟩

/-- In a map the nodes that are still to come are odd in number exactly when a
value comes next. -/
theorem even_todo_iff {outer : Spot} {header : Bytes} {passed todo : List Node}
    (h : WellFormedAll (inside outer .map header passed todo).doc) :
    todo.length % 2 = 0 ↔ passed.length % 2 = 0 := by
  obtain ⟨⟨entries, -, hlen⟩, -⟩ := wellFormed_inside h
  dsimp only at hlen
  omega

theorem exists_ahead (h : s.GoesOn) : (∃ t n, s = ahead t n) ∨ ∃ passed, s = root passed [] := by
  cases s with
  | root passed todo =>
      cases todo with
      | nil => exact .inr ⟨passed, rfl⟩
      | cons n todo => exact .inl ⟨root passed todo, n, rfl⟩
  | inside outer kind header passed todo =>
      cases todo with
      | nil => exact absurd rfl h
      | cons n todo => exact .inl ⟨inside outer kind header passed todo, n, rfl⟩

theorem doc_ahead (s : Spot) (n : Node) : (s.ahead n).doc = s.fill [n] := by
  cases s <;> simp [ahead, doc, fill]

theorem doc_behind (s : Spot) (n : Node) : (s.behind n).doc = s.fill [n] := by
  cases s <;> simp [behind, doc, fill]

/-- A node that is passed stays where it is. -/
theorem doc_passed (s : Spot) (n : Node) : (s.behind n).doc = (s.ahead n).doc :=
  (doc_behind s n).trans (doc_ahead s n).symm

/-- Going into a container changes nothing. -/
theorem doc_entered (s : Spot) (kind : Container) (header : Bytes) (items : List Node) :
    (inside s kind header [] items).doc = (s.ahead (.container kind header items)).doc :=
  (doc_ahead s _).symm

/-- Going out of a container changes nothing. -/
theorem doc_left (s : Spot) (kind : Container) (header : Bytes) (passed todo : List Node) :
    (s.behind (.container kind header (passed ++ todo))).doc =
      (inside s kind header passed todo).doc := by
  rw [doc_behind, doc, fill, List.append_nil]

theorem wellFormed_ahead (h : WellFormedAll (s.ahead n).doc) : n.WellFormed := by
  rw [doc_ahead] at h
  exact (wellFormed_fill h).1

theorem before_ahead (s : Spot) (n : Node) : (s.ahead n).before = s.before := by
  cases s <;> rfl

theorem after_ahead (s : Spot) (n : Node) : (s.ahead n).after = n.bytes ++ s.after := by
  cases s <;> simp [ahead, after, bytesAll]

theorem before_behind (s : Spot) (n : Node) : (s.behind n).before = s.before ++ n.bytes := by
  cases s <;> simp [behind, before, bytesAll]

theorem after_behind (s : Spot) (n : Node) : (s.behind n).after = s.after := by
  cases s <;> rfl

end Spot

end MsgPack
