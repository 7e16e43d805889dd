import MsgPack.Error.Kind
import MsgPack.Number
import MsgPack.Timestamp.Layout

/-!
Every way in which reading and writing can fail, with what is needed to say
so.
-/

namespace MsgPack

/-- What a reader was looking for when it found another marker. -/
inductive Expected where
  | nil | boolean | string | binary | extension | array | map
  | number | integer | float
  | exactInt (t : IntType)
  | exactFloat (p : Precision)
  | timestamp
  | timestampIn (layout : TimestampLayout)
  | value
  | anyValue
  deriving DecidableEq, Repr

def Precision.typecode : Precision → Typecode
  | single => .float32
  | double => .float64

def Expected.label : Expected → String
  | nil => "nil"
  | boolean => "boolean"
  | string => "string"
  | binary => "binary"
  | extension => "extension"
  | array => "array"
  | map => "map"
  | number => "number"
  | integer => "integer"
  | float => "float"
  | exactInt t => t.typecode.name
  | exactFloat p => p.typecode.name
  | timestamp => "timestamp"
  | timestampIn layout => layout.name
  | value => "value"
  | anyValue => "any value"

/-- The input holds something else than what was asked for. -/
inductive Mismatch where
  | marker (expected : Expected) (found : Marker)
  | timestampLength (expected found : Nat)
  | noTimestampLength (found : Nat)
  | noStruct
  | noVariant
  deriving DecidableEq

/-- The input holds what was asked for, but its content is wrong. -/
inductive Defect where
  | notBorrowable
  | invalidUtf8 (length : Nat)
  | arity (expected found : Nat)
  | outOfRange (n : Number)
  | extensionCapacity (length capacity : Nat)
  | timestampType (found : Int)
  | nanoseconds (found : Nat)
  | secondsBeyond34 (found : Nat)
  | beyondClock (seconds : Int)
  | fractionOfSecond (nanoseconds : Nat)
  | secondsOutside32 (seconds : Int)
  | secondsOutside34 (seconds : Int)
  | timestamp96Length (found : Nat)
  | variantEntries (found : Nat)
  | variantElements (found : Nat)
  | unknownVariant (name : Bytes)
  | unitPayload (name : Bytes)
  | noPayload (name : Bytes)
  | notOneCharacter (length : Nat)
  | unread (elements : Nat)
  deriving DecidableEq

/-- The input ends too early. -/
inductive Shortage where
  | memory (requested left : Nat)
  | stream (requested got : Nat)
  | streamEnded
  deriving DecidableEq, Repr

/-- Containers are nested too deeply. -/
inductive DepthExcess where
  | openScopes (limit : Nat)
  | value
  deriving DecidableEq, Repr

/-- The output takes no more. -/
inductive Overflow where
  | memory (requested left : Nat)
  | stream (rejected : Nat)
  deriving DecidableEq, Repr

/-- The five families that are written with a length. -/
inductive Sized where
  | string | binary | extension | array | map
  deriving DecidableEq, Repr

def Sized.label : Sized → String
  | string => "string"
  | binary => "binary"
  | extension => "extension"
  | array => "array"
  | map => "map"

/-- The format has no encoding for what is to be written. -/
inductive Unencodable where
  | length (what : Sized) (length : Nat)
  | codePoint (cp : Nat)
  deriving DecidableEq, Repr

/-- A length has to be known before the content. -/
inductive LengthUnknown where
  | elements (what : Sized)
  | content (what : Sized)
  deriving DecidableEq, Repr

/-- The calls of a writer that need an open scope. -/
inductive ScopedCall where
  | key | binaryChunk | pop
  deriving DecidableEq, Repr

def ScopedCall.label : ScopedCall → String
  | key => "write_key_next()"
  | binaryChunk => "binary_write_some()"
  | pop => "pop"

/-- A writer is called out of order. -/
inductive WriterMisuse where
  | keyOutsideMap
  | keyPending
  | mapFull (entries : Nat)
  | elementInBinary
  | valueWithoutKey
  | noScope (call : ScopedCall)
  | chunkOutsideBinary
  | overfilled (reached declared : Nat)
  | otherScope
  | incompleteScope (written declared : Nat)
  | incompleteValue (openScopes : Nat)
  | rootComplete
  deriving DecidableEq, Repr

inductive Container where
  | map | array
  deriving DecidableEq, Repr

def Container.ordinal : Container → Nat
  | map => 0
  | array => 1

/-- A reader is called out of order. -/
inductive ReaderMisuse where
  | exhausted
  | keyNotAnnounced
  | noScope
  | keyOutOfOrder
  | keyPending
  | scopeKind (found expected : Container)
  | closedAsOther
  | notOpen
  deriving DecidableEq, Repr

inductive Error where
  | unexpectedFormat (cause : Mismatch)
  | invalidData (cause : Defect)
  | endOfData (cause : Shortage)
  | recursionLimit (cause : DepthExcess)
  | bufferFull (cause : Overflow)
  | invalidFormat (cause : Unencodable)
  | lengthUnknown (cause : LengthUnknown)
  | writerState (cause : WriterMisuse)
  | readerContext (cause : ReaderMisuse)
  deriving DecidableEq

namespace Error

def kind : Error → ErrorKind
  | unexpectedFormat _ => .unexpectedFormat
  | invalidData _ => .invalidData
  | endOfData _ => .endOfData
  | recursionLimit _ => .recursionLimit
  | bufferFull _ => .bufferFull
  | invalidFormat _ => .invalidFormat
  | lengthUnknown _ => .lengthUnknown
  | writerState _ => .writerState
  | readerContext _ => .readerContext

end Error

end MsgPack
