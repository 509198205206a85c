import NestedStyles.Compiler
import NestedStyles.Source.Memory
import NestedStyles.Document.Views
import NestedStyles.Proofs.Document.Editing
import NestedStyles.Proofs.Document.Frame
import NestedStyles.Proofs.Document.Instantiation
import NestedStyles.Proofs.Pass.Splicing
import NestedStyles.Proofs.Walk.Replacement
import NestedStyles.Proofs.Walk.Semantics
import NestedStyles.Proofs.Walk.Visit
import NestedStyles.Proofs.Walk.Loop
import NestedStyles.Proofs.Walk.Termination
import NestedStyles.Proofs.Walk.Framing
import NestedStyles.Proofs.Walk.Refinement
import NestedStyles.Proofs.Import.Meaning
import NestedStyles.Proofs.Import.Grafting
import NestedStyles.Proofs.Import.Loop
import NestedStyles.Proofs.Import.Refinement
import NestedStyles.Proofs.Import.Cycles
import NestedStyles.Proofs.Import.Failure
import NestedStyles.Proofs.Import.Resolution
import NestedStyles.Proofs.Document.Verification
import NestedStyles.Proofs.Document.Traversal
import NestedStyles.Proofs.Document.Order
import NestedStyles.Proofs.Document.Exchange
import NestedStyles.Proofs.Document.Building
import NestedStyles.Proofs.Document.Reachability
import NestedStyles.Proofs.Json.RoundTrip
import NestedStyles.Proofs.Fragment.Interchange
import NestedStyles.Proofs.Document.Interchange
import NestedStyles.Proofs.Pass.Flattening
import NestedStyles.Proofs.Pass.Safety
import NestedStyles.Proofs.Compiler.Stages
import NestedStyles.Proofs.Compiler.Safety
import NestedStyles.Proofs.Pass.Collecting
import NestedStyles.Proofs.Pass.Pruning
import NestedStyles.Proofs.Pass.Unnesting
import NestedStyles.Proofs.Walk.Settling
import NestedStyles.Proofs.Walk.Origins
import NestedStyles.Proofs.Compiler.Flatness
import NestedStyles.Proofs.Compiler.Definitions
import NestedStyles.Proofs.Compiler.Conditionals
import NestedStyles.Proofs.Pass.Loosening
import NestedStyles.Proofs.Walk.Loosening
import NestedStyles.Proofs.Compiler.Loosening
import NestedStyles.Proofs.Text.Cutting
import NestedStyles.Proofs.Path.Segments
import NestedStyles.Proofs.Path.Normalization
import NestedStyles.Proofs.Source.Places
import NestedStyles.Proofs.Source.Confinement
import NestedStyles.Proofs.Source.Naming
import NestedStyles.Proofs.Source.Agreement
import NestedStyles.Proofs.Walk.Accounting
import NestedStyles.Proofs.Walk.Steps
import NestedStyles.Proofs.Walk.Restoring
import NestedStyles.Proofs.Walk.Coverage
import NestedStyles.Proofs.Reference.Filling
import NestedStyles.Proofs.Reference.Scanning
import NestedStyles.Proofs.Reference.Boundary
import NestedStyles.Proofs.Reference.Layering
import NestedStyles.Proofs.Walk.Verbatim
import NestedStyles.Proofs.Arguments.Binding
import NestedStyles.Proofs.Selector.Combination
import NestedStyles.Proofs.Json.Recognition
import NestedStyles.Proofs.Fragment.Nesting
import NestedStyles.Proofs.Document.Rereading
import NestedStyles.Proofs.Pass.Insertion
import NestedStyles.Proofs.Document.Copying
import NestedStyles.Proofs.Condition.Coherence
import NestedStyles.Proofs.Arguments.Naming
import NestedStyles.Proofs.Fragment.Layout
import NestedStyles.Proofs.Document.Presentation
