import MsgPack.Utf8
import MsgPack.Writer.Event

/-!
Trees and their tellings. A tree keeps of a sequence of events what cannot be
told in another way: not the pieces of a binary, nor whether a text was told as
a character. Every telling is a telling of one tree, and nothing that follows it
can make it that of another.
-/

namespace MsgPack

/-- What a writer is told: scalars with their types, containers with everything
inside them. -/
inductive Tree where
  | nil
  | bool (b : Bool)
  | int (t : IntType) (i : t.Value)
  | float (p : Precision) (x : FloatBits p)
  | text (bs : Bytes)
  | extension (e : Extension)
  | binary (content : Bytes)
  | array (elems : List Tree)
  | map (entries : List (Tree × Tree))

mutual

/-- The depth-first traversals of a tree. The length that a container announces
is the number of trees in it. -/
inductive Tells : List Event → Tree → Prop
  | nil : Tells [.nil] .nil
  | bool (b : Bool) : Tells [.bool b] (.bool b)
  | int (t : IntType) (i : t.Value) : Tells [.int t i] (.int t i)
  | float (p : Precision) (x : FloatBits p) : Tells [.float p x] (.float p x)
  | text (bs : Bytes) : Tells [.text bs] (.text bs)
  | char {cp : Nat} {bs : Bytes} (h : Utf8.encode? cp = some bs) : Tells [.char cp] (.text bs)
  | extension (e : Extension) : Tells [.extension e] (.extension e)
  | binary (chunks : List Bytes) :
      Tells (.beginBinary (some chunks.flatten.length) :: (chunks.map .chunk ++ [.endBinary]))
        (.binary chunks.flatten)
  | array {es : List Event} {elems : List Tree} (h : TellsElems es elems) :
      Tells (.beginArray (some elems.length) :: (es ++ [.endArray])) (.array elems)
  | map {es : List Event} {entries : List (Tree × Tree)} (h : TellsEntries es entries) :
      Tells (.beginMap (some entries.length) :: (es ++ [.endMap])) (.map entries)

/-- The tellings of trees one after another. -/
inductive TellsElems : List Event → List Tree → Prop
  | nil : TellsElems [] []
  | cons {es es' : List Event} {t : Tree} {ts : List Tree} (h : Tells es t)
      (hs : TellsElems es' ts) : TellsElems (es ++ es') (t :: ts)

inductive TellsEntries : List Event → List (Tree × Tree) → Prop
  | nil : TellsEntries [] []
  | cons {ks vs es : List Event} {k v : Tree} {entries : List (Tree × Tree)} (hk : Tells ks k)
      (hv : Tells vs v) (hs : TellsEntries es entries) :
      TellsEntries (.key :: (ks ++ (vs ++ es))) ((k, v) :: entries)

end

/-! ### Uniqueness -/

theorem chunks_unique {chunks chunks' : List Bytes} {r r' : List Event}
    (h : chunks.map Event.chunk ++ .endBinary :: r = chunks'.map .chunk ++ .endBinary :: r') :
    chunks = chunks' ∧ r = r' := by
  induction chunks generalizing chunks' with
  | nil =>
      cases chunks' with
      | nil => simpa using h
      | cons c chunks' => simp at h
  | cons c chunks ih =>
      cases chunks' with
      | nil => simp at h
      | cons c' chunks' =>
          simp only [List.map_cons, List.cons_append, List.cons.injEq, Event.chunk.injEq] at h
          obtain ⟨rfl, hrest⟩ := ih h.2
          exact ⟨by rw [h.1], hrest⟩

mutual

/-- A telling at the front of a sequence of events settles its tree and what is
left. -/
theorem Tells.unique {es es' r r' : List Event} {t t' : Tree} (h : Tells es t)
    (h' : Tells es' t') (heq : es ++ r = es' ++ r') : t = t' ∧ r = r' := by
  cases h with
  | nil => cases h' <;> simp_all
  | bool b => cases h' <;> simp_all
  | int t i => cases h' <;> simp_all
  | float p x => cases h' <;> simp_all
  | text bs => cases h' <;> simp_all
  | char hcp => cases h' <;> simp_all
  | extension e => cases h' <;> simp_all
  | binary chunks =>
      cases h' with
      | binary chunks' =>
          simp only [List.cons_append, List.append_assoc, List.nil_append, List.cons.injEq] at heq
          obtain ⟨rfl, hrest⟩ := chunks_unique heq.2
          exact ⟨rfl, hrest⟩
      | _ => simp at heq
  | @array es elems hs =>
      cases h' with
      | @array es' elems' hs' =>
          simp only [List.cons_append, List.append_assoc, List.nil_append, List.cons.injEq,
            Event.beginArray.injEq, Option.some.injEq] at heq
          obtain ⟨rfl, hrest⟩ := TellsElems.unique hs hs' heq.1 heq.2
          exact ⟨rfl, (List.cons.inj hrest).2⟩
      | _ => simp at heq
  | @map es entries hs =>
      cases h' with
      | @map es' entries' hs' =>
          simp only [List.cons_append, List.append_assoc, List.nil_append, List.cons.injEq,
            Event.beginMap.injEq, Option.some.injEq] at heq
          obtain ⟨rfl, hrest⟩ := TellsEntries.unique hs hs' heq.1 heq.2
          exact ⟨rfl, (List.cons.inj hrest).2⟩
      | _ => simp at heq
termination_by sizeOf t

theorem TellsElems.unique {es es' r r' : List Event} {ts ts' : List Tree}
    (h : TellsElems es ts) (h' : TellsElems es' ts') (hlen : ts.length = ts'.length)
    (heq : es ++ r = es' ++ r') : ts = ts' ∧ r = r' := by
  cases h with
  | nil =>
      cases h' with
      | nil => exact ⟨rfl, heq⟩
      | cons => cases hlen
  | cons ht hts =>
      cases h' with
      | nil => cases hlen
      | cons ht' hts' =>
          rw [List.append_assoc, List.append_assoc] at heq
          obtain ⟨rfl, hrest⟩ := Tells.unique ht ht' heq
          obtain ⟨rfl, hrest⟩ := TellsElems.unique hts hts' (Nat.succ.inj hlen) hrest
          exact ⟨rfl, hrest⟩
termination_by sizeOf ts

theorem TellsEntries.unique {es es' r r' : List Event} {ts ts' : List (Tree × Tree)}
    (h : TellsEntries es ts) (h' : TellsEntries es' ts') (hlen : ts.length = ts'.length)
    (heq : es ++ r = es' ++ r') : ts = ts' ∧ r = r' := by
  cases h with
  | nil =>
      cases h' with
      | nil => exact ⟨rfl, heq⟩
      | cons => cases hlen
  | cons hk hv hts =>
      cases h' with
      | nil => cases hlen
      | cons hk' hv' hts' =>
          simp only [List.cons_append, List.append_assoc, List.cons.injEq, true_and] at heq
          obtain ⟨rfl, hrest⟩ := Tells.unique hk hk' heq
          obtain ⟨rfl, hrest⟩ := Tells.unique hv hv' hrest
          obtain ⟨rfl, hrest⟩ := TellsEntries.unique hts hts' (Nat.succ.inj hlen) hrest
          exact ⟨rfl, hrest⟩
termination_by sizeOf ts

end

theorem Tells.ne_nil {es : List Event} {t : Tree} (h : Tells es t) : es ≠ [] := by
  cases h <;> exact List.cons_ne_nil _ _

/-- Two readings of a whole sequence of events as trees are one. -/
theorem TellsElems.eq {es : List Event} {ts ts' : List Tree} (h : TellsElems es ts)
    (h' : TellsElems es ts') : ts = ts' := by
  induction ts generalizing es ts' with
  | nil =>
      cases h
      generalize hes : [] = es at h'
      cases h' with
      | nil => rfl
      | cons ht _ => exact absurd (List.append_eq_nil_iff.mp hes.symm).1 ht.ne_nil
  | cons t ts ih =>
      cases h with
      | @cons told rest _ _ ht hts =>
          generalize hes : told ++ rest = es at h'
          cases h' with
          | nil => exact absurd (List.append_eq_nil_iff.mp hes).1 ht.ne_nil
          | cons ht' hts' =>
              obtain ⟨rfl, rfl⟩ := ht.unique ht' hes
              rw [ih hts hts']

end MsgPack
