import Dissolve.Proofs.Lens.Composition
import Dissolve.Proofs.Ssa.Assignment
import Dissolve.Proofs.Lift.Partition
import Dissolve.Proofs.Inline.Search
import Dissolve.Proofs.Semantics.Operands
import Dissolve.Proofs.Lift.Heights
import Dissolve.Proofs.Optimize.Compiled
import Dissolve.Proofs.Ssa.Sweeping
import Dissolve.Proofs.Graph.Order
import Dissolve.Proofs.Program.Initializers
import Dissolve.Proofs.Signature.Descriptors
import Dissolve.Proofs.Lift.Deferral
