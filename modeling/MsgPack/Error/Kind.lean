import MsgPack.Bytes

/-!
Kinds of failure, the codes they report, and the families a caller may handle
together.
-/

namespace MsgPack

inductive ErrorCode where
  | unexpectedFormat
  | invalidData
  | endOfData
  | bufferFull
  | invalidFormat
  | lengthUnknown
  | recursionLimit
  | custom
  deriving DecidableEq, Repr

namespace ErrorCode

def name : ErrorCode → String
  | unexpectedFormat => "unexpected format"
  | invalidData => "invalid data"
  | endOfData => "unexpected end of data"
  | bufferFull => "buffer full"
  | invalidFormat => "invalid format"
  | lengthUnknown => "sequence length unknown"
  | recursionLimit => "recursion limit exceeded"
  | custom => "custom"

def ofByte? (b : UInt8) : Option ErrorCode :=
  [unexpectedFormat, invalidData, endOfData, bufferFull, invalidFormat, lengthUnknown,
    recursionLimit, custom][b.toNat]?

/-- The name of a code given as a byte, which may be no code at all. -/
def nameOfByte (b : UInt8) : String := ((ofByte? b).map name).getD "unknown"

end ErrorCode

inductive ErrorKind where
  | unexpectedFormat
  | invalidData
  | endOfData
  | recursionLimit
  | bufferFull
  | invalidFormat
  | lengthUnknown
  | writerState
  | readerContext
  deriving DecidableEq, Repr

namespace ErrorKind

def all : List ErrorKind :=
  [unexpectedFormat, invalidData, endOfData, recursionLimit, bufferFull, invalidFormat,
    lengthUnknown, writerState, readerContext]

/-- The misuses of a writer and of a reader have no code of their own. -/
def code : ErrorKind → ErrorCode
  | unexpectedFormat => .unexpectedFormat
  | invalidData => .invalidData
  | endOfData => .endOfData
  | recursionLimit => .recursionLimit
  | bufferFull => .bufferFull
  | invalidFormat => .invalidFormat
  | lengthUnknown => .lengthUnknown
  | writerState | readerContext => .custom

def name : ErrorKind → String
  | unexpectedFormat => "unexpected_format"
  | invalidData => "invalid_data"
  | endOfData => "eof_data"
  | recursionLimit => "recursion_limit_exceeded"
  | bufferFull => "buffer_full"
  | invalidFormat => "invalid_format"
  | lengthUnknown => "seq_len_none"
  | writerState => "writer_invalid_state"
  | readerContext => "reader_invalid_context"

def ofName? (s : String) : Option ErrorKind := all.find? (·.name == s)

/-- Failures of reading. -/
def isDecode : ErrorKind → Bool
  | unexpectedFormat | invalidData | endOfData | recursionLimit => true
  | _ => false

/-- Failures that leave the input where it was, so that the caller may try
another type. -/
def isRecoverable (k : ErrorKind) : Bool := k == unexpectedFormat

/-- Failures of writing. -/
def isEncode : ErrorKind → Bool
  | bufferFull | invalidFormat | lengthUnknown => true
  | _ => false

/-- Misuses of the archive interface. -/
def isCustom (k : ErrorKind) : Bool := k.code == .custom

end ErrorKind

/-- The part of a text that a message can show: what comes before the first
NUL. -/
def shownText (text : String) : String :=
  String.ofList (text.toList.takeWhile (· ≠ '\x00'))

/-- A failure as it is told: its kind and its text. -/
structure Report where
  kind : ErrorKind
  text : String

namespace Report

/-- The text as it follows the name of the failure. -/
def suffix (r : Report) : String := if r.text.isEmpty then "" else ": " ++ r.text

end Report

end MsgPack
