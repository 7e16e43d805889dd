import MsgPack.Archive
import MsgPack.Bytes
import MsgPack.Cursor.Basic
import MsgPack.Cursor.Skip
import MsgPack.Cursor.Value
import MsgPack.Decimal.Basic
import MsgPack.Decimal.General
import MsgPack.Decimal.Shortest
import MsgPack.Error.Cause
import MsgPack.Error.Kind
import MsgPack.Error.Message
import MsgPack.Extension
import MsgPack.FloatBits.Basic
import MsgPack.FloatBits.Rounding
import MsgPack.Hex
import MsgPack.Integer
import MsgPack.Marker
import MsgPack.Number
import MsgPack.Proofs.Bytes
import MsgPack.Proofs.Copying
import MsgPack.Proofs.FloatBits.Bits
import MsgPack.Proofs.Grammar
import MsgPack.Proofs.Integer
import MsgPack.Proofs.Language
import MsgPack.Proofs.Step
import MsgPack.Proofs.Utf8
import MsgPack.Proofs.Value.Decode
import MsgPack.Proofs.Wire.Accepts
import MsgPack.Proofs.Wire.Reading
import MsgPack.Proofs.Wire.Runs
import MsgPack.Proofs.Wire.Scalars
import MsgPack.Proofs.Wire.Writing
import MsgPack.Proofs.Writer.Accounting
import MsgPack.Proofs.Writer.Encoding
import MsgPack.Proofs.Writer.Failure
import MsgPack.Proofs.Writer.Bookkeeping
import MsgPack.Proofs.Writer.Output
import MsgPack.Proofs.Writer.Scopes
import MsgPack.Proofs.Writer.Telling
import MsgPack.Proofs.Writer.Tree
import MsgPack.Proofs.Writer.WellFormed
import MsgPack.Schema.Basic
import MsgPack.Schema.Codec
import MsgPack.Schema.Events
import MsgPack.Schema.Order
import MsgPack.Schema.Restore
import MsgPack.Schema.Sharing
import MsgPack.Sink
import MsgPack.Source
import MsgPack.Timestamp.Basic
import MsgPack.Timestamp.Layout
import MsgPack.Utf8
import MsgPack.Value.Basic
import MsgPack.Value.Codec
import MsgPack.Value.Text
import MsgPack.Wire.Get
import MsgPack.Wire.Policy
import MsgPack.Wire.Put
import MsgPack.Wire.Timestamp
import MsgPack.Writer.Builder
import MsgPack.Writer.Event
import MsgPack.Writer.Scope
import MsgPack.Writer.Serializer
import MsgPack.Proofs.FloatBits.Exact
import MsgPack.Proofs.FloatBits.Worth
import MsgPack.Proofs.Wire.Fitting
import MsgPack.Proofs.Schema.Tree
import MsgPack.Proofs.Timestamp
import MsgPack.Proofs.Schema.Same
import MsgPack.Proofs.Cursor.Reads
import MsgPack.Proofs.Cursor.Elements
import MsgPack.Proofs.Schema.Fits
import MsgPack.Proofs.Schema.Shapes
import MsgPack.Proofs.Schema.Sharing
import MsgPack.Proofs.Schema.RoundTrip
import MsgPack.Proofs.Value.Encoding
import MsgPack.Proofs.Wire.Shortest
import MsgPack.Proofs.Wire.Headers
import MsgPack.Proofs.Value.Canonical
import MsgPack.Proofs.Writer.Assembly
import MsgPack.Proofs.Writer.Agreement
import MsgPack.Proofs.Document
import MsgPack.Proofs.Wire.Leaves
import MsgPack.Proofs.Schema.Leaves
import MsgPack.Proofs.Cursor.Passing
import MsgPack.Proofs.Cursor.Following
import MsgPack.Proofs.Wire.ByValue
import MsgPack.Proofs.Cursor.ByValue
import MsgPack.Proofs.Cursor.InScope
import MsgPack.Proofs.Schema.ByValue
import MsgPack.Proofs.Cursor.Mirroring
import MsgPack.Proofs.Cursor.Keeping
import MsgPack.Proofs.Cursor.Changes
import MsgPack.Proofs.Cursor.Reachable
import MsgPack.Proofs.Cursor.Skipping
import MsgPack.Proofs.Cursor.Closing
import MsgPack.Proofs.Schema.Direct
import MsgPack.Proofs.Wire.Scanning
import MsgPack.Proofs.Value.Scanning
import MsgPack.Proofs.Cursor.Building
import MsgPack.Proofs.Cursor.Scanning
import MsgPack.Proofs.Schema.Scanning
import MsgPack.Proofs.Writer.Room
import MsgPack.Proofs.Writer.Delivery
import MsgPack.Proofs.Schema.Sinks
import MsgPack.Proofs.Schema.Layers
import MsgPack.Proofs.Cursor.Covering
import MsgPack.Proofs.Schema.Refinement
import MsgPack.Proofs.Cursor.Retrying
import MsgPack.Proofs.Schema.Retrying
import MsgPack.Proofs.Cursor.Transferring
import MsgPack.Proofs.Cursor.Relocating
import MsgPack.Proofs.Schema.Relocating
import MsgPack.Proofs.Cursor.InPlace
import MsgPack.Proofs.Schema.Fields
import MsgPack.Proofs.Wire.Costs
import MsgPack.Proofs.Schema.Instants
import MsgPack.Proofs.Cursor.Unwinding
import MsgPack.Proofs.Schema.Trimming
import MsgPack.Proofs.Schema.Unions
import MsgPack.Proofs.Wire.Targets
import MsgPack.Proofs.Wire.Policies
import MsgPack.Proofs.Schema.Characters
import MsgPack.Proofs.Timestamp.Layouts
import MsgPack.Proofs.Value.Course
import MsgPack.Proofs.Cursor.Course
import MsgPack.Proofs.Schema.Bounds
import MsgPack.Proofs.Cursor.Strictness
import MsgPack.Proofs.Schema.Strictness
import MsgPack.Proofs.Value.Borrowing
import MsgPack.Proofs.Writer.Root
import MsgPack.Proofs.Schema.Order
import MsgPack.Proofs.Schema.Entries
import MsgPack.Proofs.Schema.Rereading
import MsgPack.Proofs.Schema.Maps
import MsgPack.Proofs.Cursor.Requests
import MsgPack.Proofs.Cursor.Keys
import MsgPack.Proofs.Cursor.Counting
