import SeaOfNodes.Build
import SeaOfNodes.Code.Listing
import SeaOfNodes.Graph.Verify

/-! From a finished graph to code: verified, scheduled, listed. -/

namespace SeaOfNodes

inductive CompileError where
  | verify (error : VerifyError)
  | schedule (error : ScheduleError)
  | listing (error : ListingError)
deriving DecidableEq, Repr

def CompileError.message : CompileError → String
  | .verify error => s!"graph verification failed: {error.message}"
  | .schedule error => s!"scheduling failed: {error.message}"
  | .listing error => s!"code generation failed: {error.message}"

namespace Build

def stage {ε α : Type} (wrap : ε → CompileError) : Except (Failure ε) α → ExceptT CompileError Build α
  | .ok value => pure value
  | .error (.rejected error) => throw (wrap error)
  | .error (.fault fault) => ExceptT.lift (EStateM.throw fault)

def compile (descriptor : CallDescriptor) (name : String) (flags : CodeFlags) (limit : Nat) :
    ExceptT CompileError Build Listing := do
  let graph := (← get).graph
  stage .verify graph.verify
  let schedule ← stage .schedule (Schedule.ofGraph graph)
  ExceptT.lift (note (.scheduled name schedule.size schedule.nodeCount))
  stage .listing (Listing.ofSchedule graph schedule descriptor name flags limit)

end Build

end SeaOfNodes
