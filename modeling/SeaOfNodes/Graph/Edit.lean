import SeaOfNodes.Graph.Edge

/-! Changes to a graph. -/

namespace SeaOfNodes

def swapErase (id : NodeId) (ids : List NodeId) : List NodeId :=
  match ids.idxOf? id, ids.getLast? with
  | some index, some last => (ids.set index last).dropLast
  | _, _ => ids

namespace Graph

def addUse (graph : Graph) (definition user : NodeId) : Graph :=
  { graph with uses := graph.uses.update definition (· ++ [user]) }

def removeUse (graph : Graph) (definition user : NodeId) : Graph :=
  { graph with uses := graph.uses.update definition (swapErase user) }

def modifyNode (graph : Graph) (id : NodeId) (change : Node → Node) : Graph :=
  { graph with nodes := graph.nodes.modify id change }

def push (graph : Graph) (node : Node) : NodeId × Graph :=
  let (id, nodes) := graph.nodes.alloc node
  (id, node.inputs.foldl (fun graph input => graph.addUse input id) { graph with nodes := nodes })

def addNode (graph : Graph) (op : Operator) (inputs : List NodeId) : Except Fault (NodeId × Graph) := do
  let layout ← op.checkedLayout
  require (inputs.length == layout.total)
  return graph.push { op := op, inputs := inputs }

def addTypedNode (graph : Graph) (op : Operator) (inputs : List NodeId) (type : ValueType) :
    Except Fault (NodeId × Graph) := do
  let (id, graph) ← graph.addNode op inputs
  return (id, graph.modifyNode id fun node => { node with type := type })

def setType (graph : Graph) (id : NodeId) (type : ValueType) : Except Fault Graph := do
  let _ ← graph.node id
  return graph.modifyNode id fun node => { node with type := type }

def constant (graph : Graph) (value : Constant) : NodeId × Graph :=
  match (graph.constants.lookup value).filter graph.isLive with
  | some id => (id, graph)
  | none =>
    let (id, graph) := graph.push { op := .constant value, inputs := [] }
    (id, { graph with constants := (value, id) :: graph.constants.filter fun entry => entry.1 ≠ value })

def typedConstant (graph : Graph) (value : Constant) (type : ValueType) : NodeId × Graph :=
  let (id, graph) := graph.constant value
  (id, graph.modifyNode id fun node => { node with type := type })

def int32Constant (graph : Graph) (value : Int32) : NodeId × Graph :=
  graph.typedConstant (.int32 value) (.ofNumber (.ofInt32 value))

def numberConstant (graph : Graph) (value : Double) : NodeId × Graph :=
  graph.typedConstant (.number value) (.ofNumber value)

def replaceInput (graph : Graph) (id : NodeId) (index : Nat) (input : NodeId) : Except Fault Graph := do
  let old ← graph.input id index
  if old = input then return graph
  let graph := graph.removeUse old id
  let graph := graph.modifyNode id fun node => { node with inputs := node.inputs.set index input }
  return graph.addUse input id

def insertInput (graph : Graph) (id : NodeId) (index : Nat) (input : NodeId) : Except Fault Graph := do
  let node ← graph.node id
  require (index ≤ node.inputs.length)
  let graph := graph.modifyNode id fun node => { node with inputs := node.inputs.insertIdx index input }
  return graph.addUse input id

def removeInput (graph : Graph) (id : NodeId) (index : Nat) : Except Fault Graph := do
  let old ← graph.input id index
  let graph := graph.modifyNode id fun node => { node with inputs := node.inputs.eraseIdx index }
  return graph.removeUse old id

def appendInput (graph : Graph) (id : NodeId) (input : NodeId) : Except Fault Graph := do
  let _ ← graph.node id
  let graph := graph.modifyNode id fun node => { node with inputs := node.inputs ++ [input] }
  return graph.addUse input id

def trimInputs (graph : Graph) (id : NodeId) (count : Nat) : Except Fault Graph := do
  let node ← graph.node id
  let graph := graph.modifyNode id fun node => { node with inputs := node.inputs.take count }
  return (node.inputs.drop count).foldr (fun old graph => graph.removeUse old id) graph

def changeOp (graph : Graph) (id : NodeId) (op : Operator) : Except Fault Graph := do
  let _ ← graph.node id
  return graph.modifyNode id fun node => { node with op := op }

def replaceAllUses (graph : Graph) (old new : NodeId) : Graph :=
  if old = new then graph
  else
    let redirect (graph : Graph) (edge : NodeId × Nat) : Graph :=
      (graph.modifyNode edge.1 fun node => { node with inputs := node.inputs.set edge.2 new }).addUse new edge.1
    let graph := (graph.useEdges old).foldl redirect graph
    { graph with uses := graph.uses.update old fun _ => [] }

def kill (graph : Graph) (id : NodeId) : Except Fault Graph := do
  let node ← graph.node id
  let graph := graph.modifyNode id fun node => { node with inputs := [], dead := true }
  let graph := node.inputs.foldl (fun graph input => graph.removeUse input id) graph
  match node.op with
  | .constant value =>
    if graph.constants.lookup value = some id then
      return { graph with constants := graph.constants.filter fun entry => entry.1 ≠ value }
    else return graph
  | _ => return graph

def redirectEdge (value : NodeId) (effect control : Option NodeId) (graph : Graph) (edge : NodeId × Nat) :
    Except Fault Graph := do
  let (user, index) := edge
  let node ← graph.node user
  if node.dead then return graph
  match (← graph.edgeKind user index), effect, control with
  | .control, _, some control =>
    if node.op = .control .ifSuccess then (graph.replaceAllUses user control).kill user
    else graph.replaceInput user index control
  | .effect, some effect, _ => graph.replaceInput user index effect
  | .control, _, none | .effect, none, _ => return graph
  | _, _, _ => graph.replaceInput user index value

def replaceWithValue (graph : Graph) (id value : NodeId) (effect control : Option NodeId) :
    Except Fault Graph := do
  let layout ← graph.layout id
  let effect ←
    match effect with
    | some effect => pure (some effect)
    | none => if 0 < layout.effects then some <$> graph.effectInput id else pure none
  let control ←
    match control with
    | some control => pure (some control)
    | none => if 0 < layout.controls then some <$> graph.controlInput id else pure none
  (graph.useEdges id).foldlM (redirectEdge value effect control) graph

def relaxControls (graph : Graph) (id : NodeId) : Except Fault Graph :=
  graph.replaceWithValue id id (some id) none

def mergeToEnd (graph : Graph) (terminator : NodeId) : Except Fault Graph := do
  let graph ← graph.appendInput stop terminator
  return graph.modifyNode stop fun node =>
    { node with op := .control (.stop (UInt32.ofNat node.inputs.length)) }

end Graph

inductive Edit where
  | addNode (op : Operator) (inputs : List NodeId) (type : Option ValueType)
  | constant (op : Operator)
  | int32Constant (value : Int32)
  | numberConstant (value : Double)
  | setType (id : NodeId) (type : ValueType)
  | changeOp (id : NodeId) (op : Operator)
  | replaceInput (id : NodeId) (index : Nat) (input : NodeId)
  | insertInput (id : NodeId) (index : Nat) (input : NodeId)
  | removeInput (id : NodeId) (index : Nat)
  | appendInput (id input : NodeId)
  | trimInputs (id : NodeId) (count : Nat)
  | replaceAllUses (old new : NodeId)
  | replaceWithValue (id value : NodeId) (effect control : Option NodeId)
  | relaxControls (id : NodeId)
  | kill (id : NodeId)
  | mergeToEnd (terminator : NodeId)
deriving DecidableEq, Repr

def Edit.apply (graph : Graph) : Edit → Except Fault (Option NodeId × Graph)
  | .addNode op inputs none => do
    let (id, graph) ← graph.addNode op inputs
    return (some id, graph)
  | .addNode op inputs (some type) => do
    let (id, graph) ← graph.addTypedNode op inputs type
    return (some id, graph)
  | .constant (.constant value) =>
    let (id, graph) := graph.constant value
    .ok (some id, graph)
  | .constant _ => .error .assertion
  | .int32Constant value =>
    let (id, graph) := graph.int32Constant value
    .ok (some id, graph)
  | .numberConstant value =>
    let (id, graph) := graph.numberConstant value
    .ok (some id, graph)
  | .setType id type => (none, ·) <$> graph.setType id type
  | .changeOp id op => (none, ·) <$> graph.changeOp id op
  | .replaceInput id index input => (none, ·) <$> graph.replaceInput id index input
  | .insertInput id index input => (none, ·) <$> graph.insertInput id index input
  | .removeInput id index => (none, ·) <$> graph.removeInput id index
  | .appendInput id input => (none, ·) <$> graph.appendInput id input
  | .trimInputs id count => (none, ·) <$> graph.trimInputs id count
  | .replaceAllUses old new => .ok (none, graph.replaceAllUses old new)
  | .replaceWithValue id value effect control => (none, ·) <$> graph.replaceWithValue id value effect control
  | .relaxControls id => (none, ·) <$> graph.relaxControls id
  | .kill id => (none, ·) <$> graph.kill id
  | .mergeToEnd terminator => (none, ·) <$> graph.mergeToEnd terminator

end SeaOfNodes
