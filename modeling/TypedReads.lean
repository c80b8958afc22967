import TypedReads.Main
import TypedReads.Proofs.Json.Grammar
import TypedReads.Proofs.Number.Decimal
import TypedReads.Proofs.Number.Narrow
import TypedReads.Proofs.Json.Scanning
import TypedReads.Proofs.Json.Acceptance
import TypedReads.Proofs.Entries
import TypedReads.Proofs.Value.Loading
import TypedReads.Proofs.Adapter.Opening
import TypedReads.Proofs.Read.Strict
import TypedReads.Proofs.Value.Acyclic
import TypedReads.Proofs.Value.Equality
import TypedReads.Proofs.Json.Listing
import TypedReads.Proofs.Value.Hash
import TypedReads.Proofs.Adapter.Hash
import TypedReads.Proofs.Value.Alike
import TypedReads.Proofs.Value.Content
import TypedReads.Proofs.Value.Equivalence
import TypedReads.Proofs.Number.Shortest
import TypedReads.Proofs.Number.Layout
import TypedReads.Proofs.Number.Canonical
import TypedReads.Proofs.Text.Quoting
import TypedReads.Proofs.Json.Written
import TypedReads.Proofs.Number.Floating
import TypedReads.Proofs.Value.Encoding
import TypedReads.Proofs.Value.RoundTrip
import TypedReads.Proofs.Json.Reading
import TypedReads.Proofs.Json.Rereading
import TypedReads.Proofs.Value.Represented
import TypedReads.Proofs.Read.Rereading
import TypedReads.Proofs.Adapter.Reformat
import TypedReads.Proofs.Adapter.Sharing
import TypedReads.Proofs.Json.Soundness
import TypedReads.Proofs.Json.Denotation
import TypedReads.Proofs.Json.Decoding
import TypedReads.Proofs.Number.Nearest
import TypedReads.Proofs.Json.Tokens
import TypedReads.Proofs.Value.Marking
import TypedReads.Proofs.Value.Positions
import TypedReads.Proofs.Value.Extension
import TypedReads.Proofs.Value.TreeCopy
import TypedReads.Proofs.Value.Cycles
import TypedReads.Proofs.Command.Grammar
import TypedReads.Proofs.Command.Flags
import TypedReads.Proofs.Command.Invocation
import TypedReads.Proofs.Report
import TypedReads.Proofs.Adapter.Boxes
import TypedReads.Proofs.Json.Overflow
import TypedReads.Proofs.Read.Faults
import TypedReads.Proofs.Number.Single
import TypedReads.Proofs.Value.Wordless
import TypedReads.Proofs.Read.Literal
import TypedReads.Proofs.Adapter.Overflow
import TypedReads.Proofs.Read.Range
import TypedReads.Proofs.Number.Overflow
import TypedReads.Proofs.Read.Overflow
import TypedReads.Proofs.Command.Switches
import TypedReads.Proofs.Command.Run
import TypedReads.Proofs.Json.SameContent
import TypedReads.Proofs.Value.Agreement
import TypedReads.Proofs.Value.EqualDocuments
import TypedReads.Proofs.Adapter.NumberTexts
import TypedReads.Proofs.Number.Grid
import TypedReads.Proofs.Number.Intervals
import TypedReads.Proofs.Number.ReadBack
import TypedReads.Proofs.Number.PowersOfTwo
import TypedReads.Proofs.Number.SingleText
import TypedReads.Proofs.Value.Stops
import TypedReads.Proofs.Value.Obstacles
import TypedReads.Proofs.Value.FirstOffence
import TypedReads.Proofs.Number.Clamp
import TypedReads.Proofs.Read.Modes
import TypedReads.Proofs.Read.Widths
import TypedReads.Proofs.Value.Normalization
import TypedReads.Proofs.Adapter.Merging
import TypedReads.Proofs.Read.Casts
import TypedReads.Proofs.Adapter.Copies
import TypedReads.Proofs.Adapter.Union
import TypedReads.Proofs.Read.Printed
import TypedReads.Proofs.Read.Singles
import TypedReads.Proofs.Read.Spelling
import TypedReads.Proofs.Value.PlainTrees
import TypedReads.Proofs.Adapter.SelfContainment
import TypedReads.Proofs.Text.CodePoints
import TypedReads.Proofs.Value.Serialization
import TypedReads.Proofs.Value.Paths
