import SeaOfNodes.Graph.Edit

/-! Work on a graph that may also register call descriptors and report to a journal. -/

namespace SeaOfNodes

structure Workspace where
  graph : Graph := .empty
  registry : Registry := .initial
  journal : Journal

abbrev Build := EStateM Fault Workspace

namespace Build

variable {α : Type}

def ofExcept : Except Fault α → Build α
  | .ok value => pure value
  | .error fault => throw fault

def query (read : Graph → Except Fault α) : Build α := do ofExcept (read (← get).graph)

def edit (change : Graph → Except Fault (α × Graph)) : Build α := do
  let (value, graph) ← query change
  modify fun work => { work with graph := graph }
  return value

def change (change : Graph → Except Fault Graph) : Build Unit := edit fun graph => ((), ·) <$> change graph

def note (entry : LogEntry) : Build Unit :=
  modify fun work => { work with journal := work.journal.note entry }

def report (violation : Violation) : Build Unit := do
  let (fault, journal) := (← get).journal.report violation
  modify fun work => { work with journal := journal }
  if let some fault := fault then throw fault

def checks : Build Bool := do return (← get).journal.checks

def intern (descriptor : CallDescriptor) : Build DescriptorId := do
  let (id, registry) := (← get).registry.intern descriptor
  modify fun work => { work with registry := registry }
  return id

def addNode (op : Operator) (inputs : List NodeId) : Build NodeId := edit fun graph => graph.addNode op inputs

def addTypedNode (op : Operator) (inputs : List NodeId) (type : ValueType) : Build NodeId :=
  edit fun graph => graph.addTypedNode op inputs type

def constant (value : Constant) : Build NodeId :=
  edit fun graph =>
    .ok (match value with
      | .int32 value => graph.int32Constant value
      | .number value => graph.numberConstant value
      | value => graph.constant value)

end Build

end SeaOfNodes
