import Marshal.Text.Identifier
import Marshal.Sample.Schema
import Marshal.Sample.Shapes
import Marshal.Value.Encode
import Marshal.Value.Decode
import Marshal.Wire.Stack
import Marshal.Main
import Marshal.Proofs.Evolution
import Marshal.Proofs.Skipping
import Marshal.Proofs.Deprecation
import Marshal.Proofs.DeprecatedFields
import Marshal.Proofs.Conformance
import Marshal.Proofs.Rereading
import Marshal.Proofs.Acceptance
import Marshal.Proofs.Planning
import Marshal.Proofs.Ordering
import Marshal.Proofs.Batches
import Marshal.Proofs.Sessions
import Marshal.Proofs.ValueCycles
import Marshal.Proofs.Renumbering
import Marshal.Proofs.ImportOrder
import Marshal.Proofs.Printing
import Marshal.Proofs.CommandLines
import Marshal.Proofs.Placement
import Marshal.Proofs.BatchOrder
import Marshal.Proofs.Writing
import Marshal.Proofs.Filling
import Marshal.Proofs.Truncation
import Marshal.Proofs.Naming
import Marshal.Proofs.Stacks
import Marshal.Proofs.Varints
import Marshal.Proofs.ReadingBack
import Marshal.Proofs.Emission
import Marshal.Proofs.Identifiers
import Marshal.Proofs.ModuleFiles
import Marshal.Proofs.Renaming
import Marshal.Proofs.Nesting
import Marshal.Proofs.Sequences
import Marshal.Proofs.ErrorNames
import Marshal.Code.Run
import Marshal.Proofs.Encoders
import Marshal.Proofs.Programs
import Marshal.Proofs.Mirroring
import Marshal.Proofs.Records
import Marshal.Proofs.Words
