import SeaOfNodes.Schedule.Dominators

/-! The schedule of a graph: a block and a place in it for every node that the exit depends on. -/

namespace SeaOfNodes

structure Block where
  start : NodeId
  predecessors : List BlockId
  successors : List BlockId
  nodes : List NodeId := []
  terminator : Option NodeId
  position : Option Nat
  depth : Nat
  dominator : Option BlockId
deriving DecidableEq, Repr

namespace Block

def label (block : Block) : Nat := block.position.getD (UInt32.size - 1)

def isLoopHeader (block : Block) (graph : Graph) : Bool :=
  match (graph.node? block.start).map Node.op with
  | some (.control (.loop _)) => true
  | _ => false

end Block

structure Schedule where
  blocks : Array Block
  order : List BlockId
  placement : Placement
  entry : BlockId
  dominators : DominatorTree

namespace Schedule

def block? (schedule : Schedule) (id : BlockId) : Option Block := schedule.blocks[id]?

def ordered (schedule : Schedule) : List (BlockId × Block) :=
  schedule.order.filterMap fun id => (schedule.block? id).map (id, ·)

def blockOf? (schedule : Schedule) (id : NodeId) : Option BlockId := schedule.placement.find? id

def size (schedule : Schedule) : Nat := schedule.order.length

def nodeCount (schedule : Schedule) : Nat := (schedule.ordered.flatMap fun (_, block) => block.nodes).length

def dominates (schedule : Schedule) (a b : BlockId) : Bool :=
  match schedule.order.idxOf? a, schedule.order.idxOf? b with
  | some a, some b => schedule.dominators.dominates a b
  | _, _ => a = b

/-! Placement. -/

def isFixed (graph : Graph) (id : NodeId) : Scheduling Bool := do
  let op ← Scheduling.ofFaulty (graph.op id)
  let layout ← Scheduling.ofFaulty op.checkedLayout
  return 0 < layout.controls && !op.startsBlock

def placeFixed (graph : Graph) (placement : Placement) (id : NodeId) : Scheduling Placement := do
  let op ← Scheduling.ofFaulty (graph.op id)
  let origin ← if op.isControl then pure id else Scheduling.ofFaulty (graph.controlInput id)
  let (block, placement) ← placement.controlBlock graph origin
  return placement.put id block

def valueBlock? (graph : Graph) (blocks : Array Block) (placement : Placement) (id : NodeId) :
    Option BlockId := do
  let block ← placement.find? id
  let ended := (blocks[block]?).any fun block => block.terminator = some id
  match (graph.node? id).map Node.op with
  | some (.call _) =>
    let isSuccess (user : NodeId) : Bool :=
      (graph.node? user).any fun node => node.op = .control .ifSuccess
    match ended, (graph.usesOf id).find? isSuccess with
    | true, some success => placement.find? success
    | _, _ => return block
  | _ => return block

def deepestBlock (graph : Graph) (blocks : Array Block) (placement : Placement) :
    List NodeId → BlockId → Scheduling BlockId
  | [], block => .ok block
  | input :: rest, block =>
    match valueBlock? graph blocks placement input with
    | none => Scheduling.reject (.unplaced input)
    | some candidate =>
      let depth (id : BlockId) : Nat := ((blocks[id]?).map Block.depth).getD 0
      deepestBlock graph blocks placement rest (if depth block < depth candidate then candidate else block)

def settle (graph : Graph) (blocks : Array Block) (entry : BlockId) (unvisited : List NodeId)
    (placement : Placement) (stack : List (NodeId × List NodeId)) : Scheduling (List NodeId × Placement) :=
  match stack with
  | [] => .ok (unvisited, placement)
  | (id, []) :: rest => do
    let block ← deepestBlock graph blocks placement (graph.inputsOf id) entry
    settle graph blocks entry unvisited (placement.put id block) rest
  | (id, input :: more) :: rest =>
    if (placement.find? input).isSome then
      settle graph blocks entry unvisited placement ((id, more) :: rest)
    else if input ∈ unvisited then
      settle graph blocks entry (unvisited.erase input) placement
        ((input, graph.inputsOf input) :: (id, more) :: rest)
    else Scheduling.reject (.cycle input)
termination_by (unvisited.length, stackWeight stack)
decreasing_by
  · apply Prod.Lex.right
    simp [stackWeight]
  · apply Prod.Lex.right
    simp [stackWeight]
  · apply Prod.Lex.left
    rename_i member
    have := List.length_erase_of_mem member
    have := List.length_pos_of_mem member
    omega

def placeFloating (graph : Graph) (blocks : Array Block) (entry : BlockId) :
    List NodeId → List NodeId → Placement → Scheduling Placement
  | [], _, placement => .ok placement
  | id :: rest, unvisited, placement =>
    if (placement.find? id).isSome then placeFloating graph blocks entry rest unvisited placement
    else do
      let (unvisited, placement) ←
        settle graph blocks entry (unvisited.erase id) placement [(id, graph.inputsOf id)]
      placeFloating graph blocks entry rest unvisited placement

/-! Order within a block. -/

def orderingInputs (graph : Graph) (id : NodeId) : List NodeId :=
  match graph.node? id with
  | some node => if node.op.startsBlock || node.op.isPhi then [] else node.inputs
  | none => []

def emit (graph : Graph) (placement : Placement) (block : BlockId) (unvisited : List NodeId)
    (stack : List (NodeId × List NodeId)) (emitted : List NodeId) : Scheduling (List NodeId × List NodeId) :=
  match stack with
  | [] => .ok (unvisited, emitted)
  | (id, []) :: rest => emit graph placement block unvisited rest (id :: emitted)
  | (id, input :: more) :: rest =>
    if placement.find? input ≠ some block then
      emit graph placement block unvisited ((id, more) :: rest) emitted
    else if input ∈ unvisited then
      emit graph placement block (unvisited.erase input)
        ((input, orderingInputs graph input) :: (id, more) :: rest) emitted
    else if ((id, more) :: rest).any fun entry => entry.1 = input then Scheduling.reject (.cycle input)
    else emit graph placement block unvisited ((id, more) :: rest) emitted
termination_by (unvisited.length, stackWeight stack)
decreasing_by
  · apply Prod.Lex.right
    simp [stackWeight]
  · apply Prod.Lex.right
    simp [stackWeight]
  · apply Prod.Lex.left
    rename_i member
    have := List.length_erase_of_mem member
    have := List.length_pos_of_mem member
    omega
  · apply Prod.Lex.right
    simp [stackWeight]

def emitAll (graph : Graph) (placement : Placement) (block : BlockId) :
    List NodeId → List NodeId → List NodeId → Scheduling (List NodeId × List NodeId)
  | [], unvisited, emitted => .ok (unvisited, emitted)
  | id :: rest, unvisited, emitted =>
    if id ∈ unvisited then do
      let (unvisited, emitted) ←
        emit graph placement block (unvisited.erase id) [(id, orderingInputs graph id)] emitted
      emitAll graph placement block rest unvisited emitted
    else emitAll graph placement block rest unvisited emitted

def orderBlock (graph : Graph) (placement : Placement) (id : BlockId) (block : Block)
    (members unvisited : List NodeId) : Scheduling (List NodeId × List NodeId) := do
  let isPhi (id : NodeId) : Bool := (graph.node? id).any fun node => node.op.isPhi
  let unvisited := unvisited.erase block.start
  let phis := members.filter fun id => isPhi id && id ∈ unvisited
  let unvisited := unvisited.filter fun id => id ∉ phis
  let body := members.filter fun id => some id ≠ block.terminator
  let (unvisited, emitted) ← emitAll graph placement id body unvisited (phis.reverse ++ [block.start])
  let (unvisited, emitted) ← emitAll graph placement id block.terminator.toList unvisited emitted
  return (unvisited, emitted.reverse)

def orderBlocks (graph : Graph) (placement : Placement) (ids : List NodeId) :
    List (Block × BlockId) → List NodeId → Scheduling (List Block)
  | [], _ => .ok []
  | (block, id) :: rest, unvisited => do
    let members :=
      if block.position.isSome then ids.filter fun node => placement.find? node = some id else []
    let (unvisited, nodes) ← orderBlock graph placement id block members unvisited
    let further ← orderBlocks graph placement ids rest unvisited
    return { block with nodes := nodes } :: further

def emptyBlocks (flow : Flow) (order : List BlockId) (dominators : DominatorTree) : Array Block :=
  flow.starts.mapIdx fun id start =>
    let position := order.idxOf? id
    { start := start
      predecessors := flow.predecessors id
      successors := flow.successors id
      terminator := flow.terminator? id
      position := position
      depth := (position.map dominators.depth).getD 0
      dominator := do order[← dominators.parent? (← position)]? }

def ofGraph (graph : Graph) : Scheduling Schedule := do
  let ids ← Scheduling.ofFaulty graph.schedulable
  let (flow, placement) ← Flow.ofGraph graph ids
  let entry ← Scheduling.ofFaulty (present (flow.starts.idxOf? Graph.start))
  let order := flow.order entry
  let dominators ← Scheduling.ofFaulty (DominatorTree.build (flow.positionsBefore order) order.length)
  let blocks := emptyBlocks flow order dominators
  let placement ← (← ids.filterM (isFixed graph)).foldlM (placeFixed graph) placement
  let placement ← placeFloating graph blocks entry ids (List.range graph.size) placement
  match ids.find? fun id => (placement.find? id).isNone with
  | some id => Scheduling.reject (.unplaced id)
  | none =>
    let blocks ← orderBlocks graph placement ids blocks.toList.zipIdx (List.range graph.size)
    return ⟨blocks.toArray, order, placement, entry, dominators⟩

end Schedule

end SeaOfNodes
