import MsgPack.Schema.Order
import MsgPack.Wire.Timestamp

/-!
The direct encoding of plain objects, those without structs, unions and other
shapes that only an archive knows: every scalar in the encoding of its own
type, containers under their headers. Reading accepts what writing produces.
-/

namespace MsgPack

mutual

/-- Whether the objects of a schema have a direct encoding. -/
def Schema.plain : Schema → Bool
  | .nil | .bool | .int .. | .float _ | .number | .text .. | .binary _ | .extension _
  | .fixedExtension _ | .timestamp _ | .instant _ | .value _ => true
  | .list s => s.plain
  | .map k v => k.plain && v.plain
  | .option s => s.plain
  | .tuple r => r.plain
  | .carried _ | .char | .struct _ | .variant _ => false

def Row.plain : Row → Bool
  | .nil => true
  | .cons _ s rest => s.plain && rest.plain

end

mutual

/-- Writes an object and tells how many bytes it took. -/
def Schema.encode : (s : Schema) → s.plain → s.Val → Put Nat
  | .nil, _, _ => Put.nil
  | .bool, _, b => Put.bool b
  | .int t _, _, i => Put.int t i
  | .float p, _, x => Put.float p x
  | .number, _, n => EncodePolicy.lossless.number n
  | .text .., _, bs => Put.text bs
  | .binary _, _, bs => Put.binary bs
  | .extension _, _, e => Put.extension e
  | .fixedExtension _, _, (e : FixedExtension _) => Put.extension e.ext
  | .timestamp _, _, t => Put.timestamp t
  | .instant _, _, t => Put.instant t
  | .value _, _, v => Value.put .lossless v
  | .list s, h, (xs : List s.Val) => do
    let header ← Put.arrayHeader xs.length
    xs.foldlM (fun n x => return n + (← s.encode h x)) header
  | .map k v, h, (es : List (k.Val × v.Val)) => do
    have h := Bool.and_eq_true_iff.mp h
    let header ← Put.mapHeader es.length
    es.foldlM (fun n e => return n + (← k.encode h.1 e.1) + (← v.encode h.2 e.2)) header
  | .option _, _, none => Put.nil
  | .option s, h, some x => s.encode h x
  | .tuple r, h, x => do
    let header ← Put.arrayHeader r.length
    r.encode h x header

/-- Writes the items of a row, `written` bytes being written before them. -/
def Row.encode : (r : Row) → r.plain → r.Val → (written : Nat) → Put Nat
  | .nil, _, _, written => pure written
  | .cons _ s rest, h, (x, xs), written => do
    have h := Bool.and_eq_true_iff.mp h
    let n ← s.encode h.1 x
    rest.encode h.2 xs (written + n)

end

/-- Refuses a number of elements other than the expected one. -/
def checkArity {σ : Type} (expected found : Nat) : EStateM Error σ Unit :=
  if found = expected then pure () else throw (.invalidData (.arity expected found))

mutual

/-- Reads an object from its direct encoding. -/
def Schema.decode : (s : Schema) → s.plain → Get s.Val
  | .nil, _ => Get.nil
  | .bool, _ => Get.bool
  | .int t _, _ => Get.exactInt t
  | .float p, _ => Get.exactFloat p
  | .number, _ => Get.anyNumber
  | .text storage _, _ => do storage.take (← Get.text)
  | .binary storage, _ => do storage.take (← Get.binary)
  | .extension storage, _ => do
    let (type, p) ← Get.extension
    return (⟨type, ← storage.take p⟩ : Extension)
  | .fixedExtension capacity, _ => do
    let (type, n) ← Get.extensionHeader
    if n ≤ capacity then
      let p ← Get.read n
      Get.ofExcept (FixedExtension.ofExtension capacity ⟨type, p.bytes⟩)
    else
      throw (.invalidData (.extensionCapacity n capacity))
  | .timestamp l, _ => Get.timestamp l
  | .instant u, _ => Get.instant u
  | .value .owned, _ => Value.get Value.defaultDepth
  | .value .borrowed, _ => return Value.toOwned (← Value.get Value.defaultDepth)
  | .list s, h => do
    let n ← Get.arrayHeader
    collect (s.decode h) n
  | .map k v, h => do
    have h := Bool.and_eq_true_iff.mp h
    let n ← Get.mapHeader
    let es ← collect (do return (← k.decode h.1, ← v.decode h.2)) n
    return mapOfEntries k.compare es
  | .option s, h => do
    let m ← Get.marker
    match m.code with
    | .nil => Get.after (pure none)
    | _ => return some (← s.decode h)
  | .tuple r, h => do
    checkArity r.length (← Get.arrayHeader)
    r.decode h

def Row.decode : (r : Row) → r.plain → Get r.Val
  | .nil, _ => pure ()
  | .cons _ s rest, h => do
    have h := Bool.and_eq_true_iff.mp h
    let x ← s.decode h.1
    let xs ← rest.decode h.2
    return (x, xs)

end

end MsgPack
