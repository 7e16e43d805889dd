import MsgPack.Decimal.General
import MsgPack.Error.Cause
import MsgPack.Hex

/-!
The wording of failures.
-/

namespace MsgPack

/-- A name that came as bytes, as far as a message shows it. -/
def shownName (name : Bytes) : String := shownText ((Bytes.toString? name).getD "")

/-- Integers in full, floats at a glance. -/
def Number.shown : Number → String
  | .int i => toString i.val
  | .float x => Decimal.general x

def Mismatch.message : Mismatch → String
  | marker expected found =>
    s!"{expected.label} expected, got {found.code.name} (0x" ++
      String.ofList (Hex.byte found.toByte) ++ ")"
  | timestampLength expected found =>
    s!"timestamp payload of {expected} bytes expected, got {found}"
  | noTimestampLength found => s!"timestamp payload of {found} bytes"
  | noStruct => "struct must be a map or an array"
  | noVariant => "variant must be a string, map or array"

def Defect.message : Defect → String
  | notBorrowable => "borrowed payload required, but reader yields copies"
  | invalidUtf8 length => s!"string of {length} bytes is not valid utf-8"
  | arity expected found => s!"{expected} elements expected, wire holds {found}"
  | outOfRange n => s!"{n.shown} does not fit into target type"
  | extensionCapacity length capacity =>
    s!"extension payload of {length} bytes exceeds capacity {capacity}"
  | timestampType found => s!"timestamp extension type -1 expected, got {found}"
  | nanoseconds found => s!"nanoseconds out of range: {found}"
  | secondsBeyond34 found => s!"seconds exceed 34-bit range: {found}"
  | beyondClock seconds => s!"timestamp {seconds} is out of system clock range"
  | fractionOfSecond nanos => s!"timestamp32 can't hold {nanos} nanoseconds"
  | secondsOutside32 seconds => s!"timestamp {seconds} is out of 32-bit range"
  | secondsOutside34 seconds => s!"timestamp {seconds} is out of 34-bit range"
  | timestamp96Length found => s!"timestamp96 payload must be 12 bytes, got {found}"
  | variantEntries found => s!"variant map must hold single entry, got {found}"
  | variantElements found => s!"variant array must hold 2 elements, got {found}"
  | unknownVariant name => "unknown variant '" ++ shownName name ++ "'"
  | unitPayload name => "unit variant '" ++ shownName name ++ "' must not carry payload"
  | noPayload name => "variant '" ++ shownName name ++ "' requires payload"
  | notOneCharacter length => s!"single character expected, got {length} bytes"
  | unread elements => s!"{elements} elements left unread"

def Shortage.message : Shortage → String
  | memory requested left => s!"{requested} bytes requested, only {left} bytes left"
  | stream requested got => s!"{requested} bytes requested, stream ended after {got}"
  | streamEnded => "unexpected end of stream"

def DepthExcess.message : DepthExcess → String
  | openScopes limit => s!"nesting deeper than {limit}"
  | value => "nesting deeper than configured limit"

def Overflow.message : Overflow → String
  | memory requested left => s!"{requested} bytes requested, only {left} bytes left"
  | stream rejected => s!"stream rejected {rejected} bytes"

def Unencodable.message : Unencodable → String
  | length what n => s!"{what.label} length {n} exceeds 32-bit range"
  | codePoint cp =>
    "U+" ++ String.ofList (Hex.capitals cp) ++ " is not a unicode scalar value"

def LengthUnknown.message : LengthUnknown → String
  | elements what => s!"{what.label} length must be known before its elements"
  | content what => s!"{what.label} length must be known before its content"

def WriterMisuse.message : WriterMisuse → String
  | keyOutsideMap => "key announced outside of a map"
  | keyPending => "previous key has no value yet"
  | mapFull entries => s!"map is already full ({entries} entries)"
  | elementInBinary => "binary can't contain elements"
  | valueWithoutKey => "map value written without a key"
  | noScope call => s!"{call.label} called outside of any container"
  | chunkOutsideBinary => "binary chunk outside of binary_push()"
  | overfilled reached declared => s!"container overfilled: {reached} of {declared}"
  | otherScope => "popped scope doesn't match the pushed one"
  | incompleteScope written declared =>
    s!"container closed with {written} of {declared} elements"
  | incompleteValue openScopes => s!"value is incomplete ({openScopes} scopes open)"
  | rootComplete => "root value is already complete"

def ReaderMisuse.message : ReaderMisuse → String
  | exhausted => "every element of the container was read"
  | keyNotAnnounced => "map key read without read_key_next()"
  | noScope => "no container is open"
  | keyOutOfOrder => "not a valid order for key!"
  | keyPending => "duplicated call for read_key_next()"
  | scopeKind found expected =>
    s!"invalid scope type: was {found.ordinal} - {expected.ordinal} expected"
  | closedAsOther => "scope closed as the wrong container kind"
  | notOpen => "scope is not open"

namespace Error

def message : Error → String
  | unexpectedFormat cause => cause.message
  | invalidData cause => cause.message
  | endOfData cause => cause.message
  | recursionLimit cause => cause.message
  | bufferFull cause => cause.message
  | invalidFormat cause => cause.message
  | lengthUnknown cause => cause.message
  | writerState cause => cause.message
  | readerContext cause => cause.message

def report (e : Error) : Report := ⟨e.kind, e.message⟩

end Error

end MsgPack
