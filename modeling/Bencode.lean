import Bencode.Document
import Bencode.Editor.Rules
import Bencode.Script.Document
import Bencode.Script.Stream
import Bencode.Sink.File
import Bencode.Value.Convert
import Bencode.Proofs.Cursor
import Bencode.Proofs.Decimal
import Bencode.Proofs.Reader.Number
import Bencode.Proofs.Reader.Numeral
import Bencode.Proofs.Entries
import Bencode.Proofs.Settled
import Bencode.Proofs.Reader.Tree
import Bencode.Proofs.Reader.Acceptance
import Bencode.Proofs.RoundTrip
import Bencode.Proofs.Grammar
import Bencode.Proofs.Strictness
import Bencode.Proofs.Reader.Embedding
import Bencode.Proofs.Place
import Bencode.Proofs.Input
import Bencode.Proofs.Evidence
import Bencode.Proofs.Lengths
import Bencode.Proofs.Locality
import Bencode.Proofs.Limits
import Bencode.Proofs.Normal
import Bencode.Proofs.Sink
import Bencode.Proofs.Writing
import Bencode.Proofs.Unbounded
import Bencode.Proofs.Nodes
import Bencode.Proofs.Stats
import Bencode.Proofs.FirstHole
import Bencode.Proofs.Build.Segment
import Bencode.Proofs.Build.Path
import Bencode.Proofs.Build.Frame
import Bencode.Proofs.Build.Refusal
import Bencode.Proofs.Build.Leaves
import Bencode.Proofs.Build.KeyOrder
import Bencode.Proofs.Dictionary
import Bencode.Proofs.Reachable
import Bencode.Proofs.Document
import Bencode.Proofs.Size
import Bencode.Proofs.Preorder
import Bencode.Proofs.Walk.Events
import Bencode.Proofs.Walk.Trace
import Bencode.Proofs.Walk.Bound
import Bencode.Proofs.Utf8
import Bencode.Proofs.Utf8.Order
import Bencode.Proofs.Json.Reader
import Bencode.Proofs.Json.Text
import Bencode.Proofs.Json.Lossless
import Bencode.Proofs.PathText
import Bencode.Proofs.Build.Overgrowth
import Bencode.Proofs.Machine
import Bencode.Proofs.Machine.Move
import Bencode.Proofs.Machine.Progress
