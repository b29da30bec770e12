import Interpose.Text.Blank
import Interpose.Text.Numeric
import Interpose.Text.Quoted
import Interpose.Number.Read
import Interpose.Number.Layout
import Interpose.Value.Primitive
import Interpose.Source.Grammar
import Interpose.Dispatch.Select
import Interpose.Graph.Edit
import Interpose.Graph.InPlace
import Interpose.Graph.Stabilize
import Interpose.Graph.Check
import Interpose.Graph.Prune
import Interpose.Graph.Canonical
import Interpose.EditPass
import Interpose.Lowering.Function
import Interpose.Run.Graph
import Interpose.Host.Perform
import Interpose.Script.Meaning
import Interpose.Session.Play
import Interpose.Proofs.Source.Readable
import Interpose.Proofs.Run.Safety
import Interpose.Proofs.Compiling
import Interpose.Proofs.Number.Unsigned
import Interpose.Proofs.Run.Along
import Interpose.Proofs.Pass.Direct
import Interpose.Proofs.Graph.Renaming
import Interpose.Proofs.Pruning
import Interpose.Proofs.Canonical
import Interpose.Proofs.Operators
import Interpose.Proofs.Host.Defining
import Interpose.Proofs.Host.Depth
import Interpose.Proofs.Host.Lasting
import Interpose.Proofs.Host.Transparent
import Interpose.Proofs.Preserving
import Interpose.Proofs.Copies
import Interpose.Proofs.Dispatch.Ties
import Interpose.Proofs.Graph.InPlace
import Interpose.Proofs.Pass.Cycles
import Interpose.Proofs.Lowering.Structured
import Interpose.Proofs.Graph.Answers
import Interpose.Proofs.Host.Effect
import Interpose.Proofs.Host.Ending
import Interpose.Proofs.Graph.Undoing
import Interpose.Proofs.Run.Widened
import Interpose.Proofs.Pass.InPlace
import Interpose.Proofs.Source.Spelled
import Interpose.Proofs.Value.Integers
import Interpose.Proofs.Graph.Stabilized
