import NeoScript.Archive.Crc32
import NeoScript.Archive.Deflate
import NeoScript.Archive.Directory
import NeoScript.Archive.Entry
import NeoScript.Archive.ExtraField
import NeoScript.Archive.Inflate
import NeoScript.Archive.Zip
import NeoScript.Arithmetic
import NeoScript.Assembly
import NeoScript.Bytes
import NeoScript.CommandLine.Arguments
import NeoScript.CommandLine.Artifacts
import NeoScript.CommandLine.Commands
import NeoScript.CommandLine.FileStore
import NeoScript.CommandLine.Host
import NeoScript.Contract
import NeoScript.DebugInfo.Address
import NeoScript.DebugInfo.Archive
import NeoScript.DebugInfo.Basic
import NeoScript.Error
import NeoScript.Float.Shortest
import NeoScript.FlowGraph.Basic
import NeoScript.FlowGraph.Build
import NeoScript.FlowGraph.Dot
import NeoScript.FlowGraph.References
import NeoScript.Instruction
import NeoScript.Integer
import NeoScript.Interop
import NeoScript.Json.Basic
import NeoScript.Json.Number
import NeoScript.Json.Reader
import NeoScript.Listing
import NeoScript.Machine.Run
import NeoScript.Machine.State
import NeoScript.Machine.Step
import NeoScript.Machine.Value
import NeoScript.Main
import NeoScript.Manifest
import NeoScript.Metrics
import NeoScript.Nef.Basic
import NeoScript.Nef.Parse
import NeoScript.Opcode
import NeoScript.Optimizer.Account
import NeoScript.Optimizer.Basic
import NeoScript.Optimizer.Config
import NeoScript.Pass
import NeoScript.Proofs.Archive.Inflation
import NeoScript.Proofs.Archive.Single
import NeoScript.Proofs.Arithmetic
import NeoScript.Proofs.Arithmetic.Evaluation
import NeoScript.Proofs.Arithmetic.Pushes
import NeoScript.Proofs.Assembly
import NeoScript.Proofs.CommandLine.Leniency
import NeoScript.Proofs.CommandLine.Resealing
import NeoScript.Proofs.CommandLine.Twins
import NeoScript.Proofs.Contract.Checks
import NeoScript.Proofs.Contract.Moving
import NeoScript.Proofs.Contract.Rebuild
import NeoScript.Proofs.DebugInfo.Address
import NeoScript.Proofs.DebugInfo.Rereading
import NeoScript.Proofs.DebugInfo.Writing
import NeoScript.Proofs.FlowGraph.Acceptance
import NeoScript.Proofs.FlowGraph.Build
import NeoScript.Proofs.FlowGraph.Coverage
import NeoScript.Proofs.FlowGraph.Partition
import NeoScript.Proofs.FlowGraph.Passage
import NeoScript.Proofs.FlowGraph.Reachability
import NeoScript.Proofs.FlowGraph.References
import NeoScript.Proofs.FlowGraph.Refusal
import NeoScript.Proofs.FlowGraph.Retargeting
import NeoScript.Proofs.FlowGraph.Shape
import NeoScript.Proofs.Json.Agreement
import NeoScript.Proofs.Json.Members
import NeoScript.Proofs.Json.Numbers
import NeoScript.Proofs.Json.Results
import NeoScript.Proofs.Json.Skipping
import NeoScript.Proofs.Json.Writing
import NeoScript.Proofs.Listing.Lines
import NeoScript.Proofs.Listing.Reading
import NeoScript.Proofs.Machine.Bounds
import NeoScript.Proofs.Machine.Changes
import NeoScript.Proofs.Machine.Control
import NeoScript.Proofs.Machine.Copying
import NeoScript.Proofs.Machine.Effects
import NeoScript.Proofs.Machine.Evolution
import NeoScript.Proofs.Machine.Exceptions
import NeoScript.Proofs.Machine.Nesting
import NeoScript.Proofs.Machine.Operations
import NeoScript.Proofs.Machine.Pointers
import NeoScript.Proofs.Machine.Provenance
import NeoScript.Proofs.Machine.Safety
import NeoScript.Proofs.Machine.Simulation
import NeoScript.Proofs.Machine.Stepping
import NeoScript.Proofs.Manifest.Carrying
import NeoScript.Proofs.Nef.Reading
import NeoScript.Proofs.Nef.RoundTrip
import NeoScript.Proofs.Nef.Spelling
import NeoScript.Proofs.Optimizer.Cost
import NeoScript.Proofs.Optimizer.FixedPoint
import NeoScript.Proofs.Optimizer.Frame
import NeoScript.Proofs.Optimizer.Fusion
import NeoScript.Proofs.Optimizer.Ledger
import NeoScript.Proofs.Optimizer.Preservation
import NeoScript.Proofs.Optimizer.Shape
import NeoScript.Proofs.Optimizer.Totality
import NeoScript.Proofs.Pass.Order
import NeoScript.Proofs.Pass.Run
import NeoScript.Proofs.Pass.Settled
import NeoScript.Proofs.Pass.Step
import NeoScript.Proofs.Relocation.AddressMap
import NeoScript.Proofs.Relocation.Blocks
import NeoScript.Proofs.Relocation.Contraction
import NeoScript.Proofs.Relocation.Correctness
import NeoScript.Proofs.Relocation.Embedding
import NeoScript.Proofs.Relocation.Identity
import NeoScript.Proofs.Relocation.Locating
import NeoScript.Proofs.Relocation.Lookup
import NeoScript.Proofs.Relocation.Minimality
import NeoScript.Proofs.Relocation.Operands
import NeoScript.Proofs.Relocation.Shape
import NeoScript.Proofs.Relocation.Simulation
import NeoScript.Proofs.Relocation.Transfer
import NeoScript.Proofs.Relocation.Widening
import NeoScript.Proofs.Revision.Arrays
import NeoScript.Proofs.Revision.Confluence
import NeoScript.Proofs.Revision.Cost
import NeoScript.Proofs.Revision.Folding
import NeoScript.Proofs.Revision.Fusion
import NeoScript.Proofs.Revision.Meaning
import NeoScript.Proofs.Revision.Patterns
import NeoScript.Proofs.Revision.Placement
import NeoScript.Proofs.Revision.Proper
import NeoScript.Proofs.Revision.Segment
import NeoScript.Proofs.Revision.Size
import NeoScript.Proofs.Revision.Strategy
import NeoScript.Proofs.Script.Codec
import NeoScript.Proofs.Script.Reading
import NeoScript.Proofs.Script.RoundTrip
import NeoScript.Proofs.Script.Validity
import NeoScript.Proofs.Table
import NeoScript.Proofs.Text.Decimal
import NeoScript.Proofs.Text.Utf8
import NeoScript.Relocation
import NeoScript.Revision.Basic
import NeoScript.Revision.Edit
import NeoScript.Revision.Folding
import NeoScript.Revision.Fusion
import NeoScript.Revision.Strategy
import NeoScript.Samples
import NeoScript.Script
import NeoScript.Sha256
import NeoScript.Text.CodePage
import NeoScript.Text.Decimal
import NeoScript.Text.Lines
import NeoScript.Text.Path
import NeoScript.Text.Upper
import NeoScript.Text.Utf8
import NeoScript.Trace
import NeoScript.Validation
