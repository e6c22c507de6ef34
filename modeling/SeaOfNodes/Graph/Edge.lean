import SeaOfNodes.Graph.Basic

namespace SeaOfNodes

inductive EdgeKind where
  | value | context | frameState | effect | control
deriving DecidableEq, Repr

def InputLayout.edgeKind (layout : InputLayout) (index : Nat) : EdgeKind :=
  if index < layout.values then .value
  else if layout.context && index == layout.contextIndex then .context
  else if layout.frameState && index == layout.frameStateIndex then .frameState
  else if index < layout.firstControl then .effect
  else .control

namespace Graph

def layout (graph : Graph) (id : NodeId) : Except Fault InputLayout := do (← graph.op id).checkedLayout

def edgeKind (graph : Graph) (user : NodeId) (index : Nat) : Except Fault EdgeKind := do
  return (← graph.layout user).edgeKind index

def input (graph : Graph) (id : NodeId) (index : Nat) : Except Fault NodeId := do
  present (← graph.node id).inputs[index]?

def valueInput (graph : Graph) (id : NodeId) (index : Nat) : Except Fault NodeId := do
  let layout ← graph.layout id
  require (index < layout.values)
  graph.input id index

def valueInputs (graph : Graph) (id : NodeId) : Except Fault (List NodeId) := do
  let layout ← graph.layout id
  return (← graph.node id).inputs.take layout.values

def contextInput? (graph : Graph) (id : NodeId) : Except Fault (Option NodeId) := do
  let layout ← graph.layout id
  if layout.context then some <$> graph.input id layout.contextIndex else return none

def frameStateInput? (graph : Graph) (id : NodeId) : Except Fault (Option NodeId) := do
  let layout ← graph.layout id
  if layout.frameState then some <$> graph.input id layout.frameStateIndex else return none

def effectInput (graph : Graph) (id : NodeId) (index : Nat := 0) : Except Fault NodeId := do
  let layout ← graph.layout id
  require (index < layout.effects)
  graph.input id (layout.firstEffect + index)

def controlInput (graph : Graph) (id : NodeId) (index : Nat := 0) : Except Fault NodeId := do
  let layout ← graph.layout id
  require (index < layout.controls)
  graph.input id (layout.firstControl + index)

end Graph

end SeaOfNodes
