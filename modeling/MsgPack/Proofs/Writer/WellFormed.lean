import Mathlib.Logic.ExistsUnique
import MsgPack.Proofs.Writer.Encoding

/-!
Whatever a serializer has written when no scope is open is well-formed: it is
the encoding of the trees that it was told, which are found in it again.
-/

namespace MsgPack

open Grammar (Derives)

variable {policy : EncodePolicy}

/-- Reading back one value after another ends at the end of the output. -/
theorem run_collect_get {depth : Nat} {ts : List Tree}
    (h : ∀ t ∈ ts, Derives depth (t.bytes policy) (t.value policy)) :
    Get.run (collect (Value.get depth) ts.length) .memory (ts.flatMap (Tree.bytes policy)) =
      .ok (ts.map (Tree.value policy))
        { kind := .memory, left := [], position := (ts.flatMap (Tree.bytes policy)).length } := by
  have haccepts := (accepts_get depth).collect ts.length
  have hleft : (Source.ofBytes .memory (ts.flatMap (Tree.bytes policy))).left =
      ts.flatMap (Tree.bytes policy) ++ [] := (List.append_nil _).symm
  refine (haccepts.complete hleft (Language.repeated_map h)).trans ?_
  simp [Source.advance, Source.ofBytes]

theorem Serializer.out_extend (scopes : Scopes) (bs : Bytes) :
    (Serializer.extend (.ofSink policy .buffer) scopes bs).sink.out.toList = bs := by
  simp [Serializer.extend, Serializer.ofSink, Sink.append]

/-- A telling of trees whose lengths can be announced puts out their bytes. -/
theorem Serializer.run_of_tells {es : List Event} {ts : List Tree} (hts : TellsElems es ts)
    (hshort : Tree.EverywhereElems Tree.Short ts) :
    Writer.run es (Serializer.ofSink policy .buffer) =
      .ok () (Serializer.extend (.ofSink policy .buffer) [] (Tree.bytesElems policy ts)) := by
  have hes := hts.writable hshort
  have htell := (tell_iff_tells fun e he => (hes e he).1).mpr ⟨ts, hts⟩
  refine (Serializer.run_ok_iff rfl).mpr ⟨hes, [], htell, ?_⟩
  rw [← hts.flatMap_bytes]
  rfl

theorem Serializer.run_of_tree (policy : EncodePolicy) {es : List Event} {t : Tree}
    (ht : Tells es t) (hshort : t.Everywhere Tree.Short) :
    Writer.run es (Serializer.ofSink policy .buffer) =
      .ok () (Serializer.extend (.ofSink policy .buffer) [] (t.bytes policy)) := by
  have h : Writer.run (es ++ []) (Serializer.ofSink policy .buffer) = _ :=
    Serializer.run_of_tells (.cons ht .nil) ⟨hshort, trivial⟩
  rw [List.append_nil, Tree.bytesElems, Tree.bytesElems, List.append_nil] at h
  exact h

theorem spelled_of_texts {es : List Event} (h : ∀ bs, Event.text bs ∈ es → Utf8.isValid bs) :
    ∀ e ∈ es, e.Spelled := by
  intro e he
  cases e with
  | text bs => exact h bs he
  | _ => exact trivial

/-- The events of a run that ends with no scope open are the depth-first
traversal of one list of trees, the output is their encodings in order, and
readers of sufficient depth find their values in it and nothing else.
Conversely every traversal of trees whose lengths fit is written. -/
theorem serializer_writes_trees (policy : EncodePolicy) :
    (∀ (es : List Event) (s : Serializer), (∀ bs, Event.text bs ∈ es → Utf8.isValid bs) →
      Writer.run es (Serializer.ofSink policy .buffer) = .ok () s → s.scopes = [] →
      (∃! ts, TellsElems es ts) ∧
        ∀ ts, TellsElems es ts →
          s.sink.out.toList = ts.flatMap (Tree.bytes policy) ∧
          (∀ t ∈ ts, Derives t.height (t.bytes policy) (t.value policy)) ∧
          ∀ depth, (∀ t ∈ ts, t.height ≤ depth) →
            Get.run (collect (Value.get depth) ts.length) .memory s.sink.out.toList =
              .ok (ts.map (Tree.value policy))
                { kind := .memory, left := [], position := s.sink.out.size }) ∧
    ∀ (es : List Event) (ts : List Tree), TellsElems es ts →
      (∀ t ∈ ts, t.Everywhere Tree.Short) →
      ∃ s, Writer.run es (Serializer.ofSink policy .buffer) = .ok () s ∧ s.scopes = [] := by
  refine ⟨?_, ?_⟩
  · intro es s htexts hrun hscopes
    obtain ⟨hes, scopes, htell, rfl⟩ := (Serializer.run_ok_iff rfl).mp hrun
    obtain rfl : scopes = [] := hscopes
    -- the scopes have been told trees, and the bytes went out alongside
    obtain ⟨ts, hts⟩ := (tell_iff_tells fun e he => (hes e he).1).mp htell
    refine ⟨⟨ts, hts, fun ts' hts' => hts'.eq hts⟩, ?_⟩
    intro ts' hts'
    obtain rfl := hts'.eq hts
    have hshort := Tree.everywhereElems_iff.mp (hts.everywhere short_of_writable hes)
    have hspelled := Tree.everywhereElems_iff.mp
      (hts.everywhere spelled_of_spelled (spelled_of_texts htexts))
    have hout : (Serializer.extend (.ofSink policy .buffer) []
        (es.flatMap (Event.bytes policy))).sink.out.toList = ts'.flatMap (Tree.bytes policy) := by
      rw [Serializer.out_extend, hts.flatMap_bytes, Tree.bytesElems_eq]
    refine ⟨hout, fun t ht => Tree.derives (hshort t ht) (hspelled t ht) (Nat.le_refl _), ?_⟩
    intro depth hdepth
    have hderives : ∀ t ∈ ts', Derives depth (t.bytes policy) (t.value policy) := fun t ht =>
      Tree.derives (hshort t ht) (hspelled t ht) (hdepth t ht)
    have hget := run_collect_get hderives
    rw [← hout] at hget
    rwa [Array.length_toList] at hget
  · intro es ts hts hshort
    exact ⟨_, Serializer.run_of_tells hts (Tree.everywhereElems_iff.mpr hshort), rfl⟩

/-- A map of a text to a binary in two pieces. -/
theorem serializer_writes_binary_in_map :
    (∃ s, Writer.run [.beginMap (some 1), .key, .text [0x61], .beginBinary (some 2), .chunk [1],
        .chunk [2], .endBinary, .endMap] (Serializer.ofSink .lossless .buffer) = .ok () s ∧
      Get.run (collect (Value.get 1 : Get OwnedValue) 1) .memory s.sink.out.toList =
        .ok [.map [(.string [0x61], .binary [1, 2])]]
          { kind := .memory, left := [], position := 7 }) ∧
      ∃ s, Writer.run [.nil] (Serializer.ofSink .lossless .buffer) = .ok () s ∧
        s.scopes = [] := by
  obtain ⟨hforward, hbackward⟩ := serializer_writes_trees .lossless
  refine ⟨⟨_, rfl, ?_⟩, ?_⟩
  · have htells := hforward [.beginMap (some 1), .key, .text [0x61], .beginBinary (some 2),
      .chunk [1], .chunk [2], .endBinary, .endMap] _ (by
        intro bs hbs
        obtain rfl : bs = [0x61] := by simpa using hbs
        decide) rfl rfl
    exact (htells.2 [.map [(.text [0x61], .binary [1, 2])]]
      (.cons (.map (.cons (.text [0x61]) (.binary [[1], [2]]) .nil)) .nil)).2.2 1 (by decide)
  · exact hbackward [.nil] [.nil] (.cons .nil .nil) (by simp [Tree.Everywhere, Tree.Short])

end MsgPack
