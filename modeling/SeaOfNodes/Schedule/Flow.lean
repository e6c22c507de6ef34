import SeaOfNodes.Graph.Edit
import SeaOfNodes.Schedule.Traversal

/-! Basic blocks. -/

namespace SeaOfNodes

abbrev BlockId := Nat

inductive ScheduleError where
  | unplaced (node : NodeId)
  | unexpectedControl (node : NodeId) (op : String)
  | cycle (node : NodeId)
deriving DecidableEq, Repr

def ScheduleError.message : ScheduleError → String
  | .unplaced node => s!"node {node.text} is reachable but has no control block"
  | .unexpectedControl node op => s!"control node {node.text} ({op}) cannot start or continue a block"
  | .cycle node => s!"value cycle through node {node.text} without a phi"

abbrev Scheduling := Except (Failure ScheduleError)

namespace Scheduling

variable {α : Type}

def ofFaulty (result : Except Fault α) : Scheduling α := result.mapError .fault

def reject (error : ScheduleError) : Scheduling α := .error (.rejected error)

end Scheduling

def Operator.startsBlock : Operator → Bool
  | .control op =>
    match op with
    | .start | .ifTrue | .ifFalse | .ifDefault | .ifSuccess | .ifException | .merge _ | .loop _
    | .ifValue _ => true
    | _ => false
  | _ => false

def Graph.reach (graph : Graph) (unvisited stack found : List NodeId) : Except Fault (List NodeId) :=
  match stack with
  | [] => .ok found
  | id :: rest =>
    match graph.node? id with
    | none => .error .assertion
    | some node =>
      if id ∈ unvisited then graph.reach (unvisited.erase id) (node.inputs ++ rest) (id :: found)
      else graph.reach unvisited rest found
termination_by (unvisited.length, stack.length)
decreasing_by
  · apply Prod.Lex.left
    rename_i member
    have := List.length_erase_of_mem member
    have := List.length_pos_of_mem member
    omega
  · apply Prod.Lex.right
    simp

def Graph.schedulable (graph : Graph) : Except Fault (List NodeId) := do
  let ids := List.range graph.size
  let found ← graph.reach ids [Graph.start, Graph.stop] []
  return ids.filter fun id => id ∈ found && id ≠ Graph.stop

abbrev Placement := Array (Option BlockId)

namespace Placement

def find? (placement : Placement) (id : NodeId) : Option BlockId := placement[id]?.join

def put (placement : Placement) (id : NodeId) (block : BlockId) : Placement :=
  placement.setIfInBounds id (some block)

def walk (placement : Placement) (graph : Graph) (origin : NodeId) :
    Nat → NodeId → List NodeId → Scheduling (BlockId × List NodeId)
  | 0, _, _ => .error (.fault .endless)
  | steps + 1, current, passed =>
    match placement.find? current with
    | some block => .ok (block, passed)
    | none => do
      let op ← Scheduling.ofFaulty (graph.op current)
      let layout ← Scheduling.ofFaulty op.checkedLayout
      if layout.controls = 0 || (op.isTerminator && current ≠ origin) then
        Scheduling.reject (.unexpectedControl current op.mnemonic)
      else
        let previous ← Scheduling.ofFaulty (graph.controlInput current)
        placement.walk graph origin steps previous (current :: passed)

def controlBlock (placement : Placement) (graph : Graph) (id : NodeId) : Scheduling (BlockId × Placement) := do
  let (block, passed) ← placement.walk graph id (graph.size + 1) id []
  return (block, passed.foldl (fun placement id => placement.put id block) placement)

end Placement

structure Jump where
  source : BlockId
  target : BlockId
  terminator : Option NodeId
deriving DecidableEq, Repr

structure Flow where
  starts : Array NodeId
  jumps : List Jump
  exits : List (BlockId × NodeId)
deriving DecidableEq, Repr

namespace Flow

def size (flow : Flow) : Nat := flow.starts.size

def successors (flow : Flow) (block : BlockId) : List BlockId :=
  flow.jumps.filterMap fun jump => if jump.source = block then some jump.target else none

def predecessors (flow : Flow) (block : BlockId) : List BlockId :=
  flow.jumps.filterMap fun jump => if jump.target = block then some jump.source else none

def terminator? (flow : Flow) (block : BlockId) : Option NodeId :=
  let jumps := flow.jumps.filterMap fun jump => if jump.source = block then jump.terminator else none
  let exits := flow.exits.filterMap fun exit => if exit.1 = block then some exit.2 else none
  exits.getLast?.or jumps.getLast?

def order (flow : Flow) (entry : BlockId) : List BlockId := reversePostorder flow.successors flow.size entry

def positionsBefore (flow : Flow) (order : List BlockId) (position : Nat) : List Nat :=
  match order[position]? with
  | some block => (flow.predecessors block).filterMap order.idxOf?
  | none => []

def jumpsInto (graph : Graph) (start : NodeId) (target : BlockId) (placement : Placement) :
    Nat → Nat → Scheduling (List Jump × Placement)
  | 0, _ => .ok ([], placement)
  | inputs + 1, index => do
    let control ← Scheduling.ofFaulty (graph.input start index)
    let (source, placement) ← placement.controlBlock graph control
    let op ← Scheduling.ofFaulty (graph.op control)
    let terminator := if op.startsBlock then none else some control
    let (jumps, placement) ← jumpsInto graph start target placement inputs (index + 1)
    return (⟨source, target, terminator⟩ :: jumps, placement)

def allJumps (graph : Graph) : List (NodeId × BlockId) → Placement → Scheduling (List Jump × Placement)
  | [], placement => .ok ([], placement)
  | (start, target) :: rest, placement => do
    let layout ← Scheduling.ofFaulty (graph.layout start)
    let (jumps, placement) ← jumpsInto graph start target placement layout.controls layout.firstControl
    let (further, placement) ← allJumps graph rest placement
    return (jumps ++ further, placement)

def allExits (graph : Graph) : List NodeId → Placement → Scheduling (List (BlockId × NodeId) × Placement)
  | [], placement => .ok ([], placement)
  | terminator :: rest, placement => do
    let (block, placement) ← placement.controlBlock graph terminator
    let (exits, placement) ← allExits graph rest placement
    return ((block, terminator) :: exits, placement)

def ofGraph (graph : Graph) (ids : List NodeId) : Scheduling (Flow × Placement) := do
  let starts := ids.filter fun id => (graph.node? id).any fun node => node.op.startsBlock
  let unplaced : Placement := Array.replicate graph.size none
  let placement := starts.zipIdx.foldl (fun placement (start, block) => placement.put start block) unplaced
  let (jumps, placement) ← allJumps graph starts.zipIdx placement
  let (exits, placement) ← allExits graph (graph.inputsOf Graph.stop) placement
  return (⟨starts.toArray, jumps, exits⟩, placement)

end Flow

end SeaOfNodes
