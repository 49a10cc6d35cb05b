import EcmaTree.Bytes.LittleEndian
import EcmaTree.Data.Json
import EcmaTree.Data.Value
import EcmaTree.Diagnostics
import EcmaTree.Event
import EcmaTree.Event.Json
import EcmaTree.Event.Nesting
import EcmaTree.Event.Value
import EcmaTree.Number.Binary64
import EcmaTree.Proofs.Layout
import EcmaTree.Proofs.Packing
import EcmaTree.Proofs.Spelling
import EcmaTree.Proofs.Values
import EcmaTree.Stream.Fault
import EcmaTree.Stream.Sink
import EcmaTree.Stream.Source
import EcmaTree.Text.Utf8
import EcmaTree.Tree.Cursor
import EcmaTree.Tree.Declaration
import EcmaTree.Tree.Draft
import EcmaTree.Tree.Events
import EcmaTree.Tree.Hoisting
import EcmaTree.Tree.Kind
import EcmaTree.Tree.Literal
import EcmaTree.Tree.Node
import EcmaTree.Tree.Role
import EcmaTree.Tree.Schema
import EcmaTree.Tree.Vocabulary
import EcmaTree.Tree.Widening
import EcmaTree.Tree.Writing
import EcmaTree.Wire.Decoder
import EcmaTree.Wire.Encoding
import EcmaTree.Wire.Scratch
import EcmaTree.Wire.Tag
import EcmaTree.Wire.Writer
import EcmaTree.Proofs.Frames
import EcmaTree.Proofs.Nesting
import EcmaTree.Proofs.Delivery
import EcmaTree.Proofs.Enumeration
import EcmaTree.Proofs.Streams
import EcmaTree.Proofs.Trees
import EcmaTree.Proofs.Grammar
import EcmaTree.Proofs.Recognition
import EcmaTree.Proofs.Parsing
import EcmaTree.Proofs.RoundTrip
import EcmaTree.Proofs.Atomicity
import EcmaTree.Proofs.Traversal
import EcmaTree.Proofs.Lossless
import EcmaTree.Proofs.Scopes
import EcmaTree.Proofs.Ownership
import EcmaTree.Proofs.Shortest
import EcmaTree.Proofs.Truncation
import EcmaTree.Proofs.Checking
import EcmaTree.Proofs.Dyadic
import EcmaTree.Proofs.Literals
import EcmaTree.Proofs.Driving
import EcmaTree.Proofs.Interruption
import EcmaTree.Proofs.Protocol
import EcmaTree.Proofs.Faults
import EcmaTree.Proofs.Rollback
import EcmaTree.Proofs.DepthBound
import EcmaTree.Proofs.Iteration
import EcmaTree.Proofs.Height
import EcmaTree.Proofs.Progress
import EcmaTree.Proofs.TagErrors
import EcmaTree.Proofs.Recording
import EcmaTree.Proofs.Buffering
import EcmaTree.Proofs.Attachment
import EcmaTree.Proofs.ByteOrder
