import SeaOfNodes.Exchange.Heap
import SeaOfNodes.Exchange.Code
import SeaOfNodes.Proofs.Graph.Arises
import SeaOfNodes.Proofs.Lowering.Projections
import SeaOfNodes.Proofs.Schedule.Terminators
import SeaOfNodes.Proofs.Creation.Declined
import SeaOfNodes.Proofs.Creation.Framed
import SeaOfNodes.Proofs.Assembler.CallSites
import SeaOfNodes.Proofs.Assembler.Leaps
import SeaOfNodes.Proofs.Lowering.Callees
import SeaOfNodes.Proofs.Lowering.Fixpoint
import SeaOfNodes.Proofs.Graph.Verdict
import SeaOfNodes.Proofs.Graph.Replaced
import SeaOfNodes.Proofs.Schedule.Acyclic
import SeaOfNodes.Proofs.Creation.Admitted
import SeaOfNodes.Proofs.Creation.Budget
import SeaOfNodes.Proofs.Creation.ArrayValues
import SeaOfNodes.Proofs.Creation.ArgumentValues
import SeaOfNodes.Proofs.Subtyping
import SeaOfNodes.Proofs.Assembler.Folding
import SeaOfNodes.Proofs.Creation.Limits
import SeaOfNodes.Proofs.Code.Comments
import SeaOfNodes.Proofs.Creation.ElementTypes
import SeaOfNodes.Proofs.Call.Locations
import SeaOfNodes.Proofs.Graph.Constants
