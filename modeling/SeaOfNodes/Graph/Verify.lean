import SeaOfNodes.Data.BitSet
import SeaOfNodes.Graph.Edge

/-! The structure that a scheduler relies on. -/

namespace SeaOfNodes

inductive VerifyError where
  | startCount (count : Nat)
  | invalidInput (node : NodeId) (index : Nat) (input : NodeId)
  | deadInput (node input : NodeId)
  | inputCount (node : NodeId) (op : Operator) (expected actual : Nat)
  | unterminatedControl (node : NodeId) (op : Operator)
deriving DecidableEq, Repr

def VerifyError.message : VerifyError → String
  | .startCount count => s!"graph has {count} start nodes, expected exactly one"
  | .invalidInput node index input => s!"node {node.text} input {index} refers to missing node {input.text}"
  | .deadInput node input => s!"live node {node.text} uses dead node {input.text}"
  | .inputCount node op expected actual =>
    s!"node {node.text} ({op.mnemonic}) has {actual} inputs, its layout expects {expected}"
  | .unterminatedControl node op => s!"control node {node.text} ({op.mnemonic}) has no control use"

namespace Graph

def liveEntries (graph : Graph) : List (NodeId × Node) :=
  graph.nodes.entries.filter fun entry => !entry.2.dead

def verifyInput (graph : Graph) (id : NodeId) (input : NodeId × Nat) : Except (Failure VerifyError) Unit :=
  match graph.node? input.1 with
  | none => .error (.rejected (.invalidInput id input.2 input.1))
  | some definition => if definition.dead then .error (.rejected (.deadInput id input.1)) else .ok ()

def verifyNode (graph : Graph) (entry : NodeId × Node) : Except (Failure VerifyError) Unit := do
  let layout ← entry.2.op.checkedLayout.mapError .fault
  if entry.2.inputs.length = layout.total then
    entry.2.inputs.zipIdx.forM (graph.verifyInput entry.1)
  else
    .error (.rejected (.inputCount entry.1 entry.2.op layout.total entry.2.inputs.length))

def controlInputs (node : Node) : List NodeId := node.inputs.drop node.op.layout.firstControl

def controlUsed (graph : Graph) : BitSet :=
  (graph.liveEntries.flatMap fun entry => controlInputs entry.2).foldl BitSet.insert (.withCapacity graph.size)

def verifyControl (used : BitSet) (entry : NodeId × Node) : Except (Failure VerifyError) Unit :=
  if entry.1 = stop || !entry.2.op.isControl || used.contains entry.1 then .ok ()
  else .error (.rejected (.unterminatedControl entry.1 entry.2.op))

def verify (graph : Graph) : Except (Failure VerifyError) Unit := do
  let entries := graph.liveEntries
  let starts := entries.countP fun entry => entry.2.op = .control .start
  if starts = 1 then
    entries.forM graph.verifyNode
    entries.forM (verifyControl graph.controlUsed)
  else .error (.rejected (.startCount starts))

end Graph

end SeaOfNodes
