import SeaOfNodes.Build
import SeaOfNodes.Heap.Snapshot

/-! An assembler builds the graph of one code object in straight-line style. -/

namespace SeaOfNodes

abbrev VariableId := Nat

abbrev LabelId := Nat

structure Position where
  effect : NodeId
  control : NodeId
deriving DecidableEq, Repr

structure VariableInfo where
  name : String
  representation : Representation
  value : Option NodeId := none
  live : Bool := true
deriving DecidableEq, Repr

inductive LabelKind where
  | plain
  | deferred
  | loop
deriving DecidableEq, Repr

structure Arrival where
  position : Position
  values : List (VariableId × NodeId)
deriving DecidableEq, Repr

structure Binding where
  paths : Nat
  merge : Option NodeId := none
  effectPhi : Option NodeId := none
  phis : List (VariableId × NodeId) := []
  values : List (VariableId × NodeId) := []
deriving DecidableEq, Repr

inductive LabelState where
  | waiting (arrivals : List Arrival)
  | bound (binding : Binding)
deriving DecidableEq, Repr

structure LabelInfo where
  name : String
  kind : LabelKind
  declared : List VariableId
  state : LabelState := .waiting []
deriving DecidableEq, Repr

namespace LabelInfo

def isBound (label : LabelInfo) : Bool :=
  match label.state with
  | .waiting _ => false
  | .bound _ => true

def pathCount (label : LabelInfo) : Nat :=
  match label.state with
  | .waiting arrivals => arrivals.length
  | .bound binding => binding.paths

end LabelInfo

inductive Hook where
  | nothing
  | debugBreak
  | comment (text : String)
  | unregister
  | register
deriving DecidableEq, Repr

structure AssemblerConfig where
  codeComments : Bool := false
  initialCapacity : Nat := 256
deriving DecidableEq, Repr

structure Assembler extends Workspace where
  descriptor : DescriptorId
  config : AssemblerConfig
  parameters : List NodeId
  current : Option Position := some ⟨Graph.start, Graph.start⟩
  vars : Pool VariableInfo := .empty
  labels : Pool LabelInfo := .empty
  prologue : Option Hook := none
  epilogue : Option Hook := none
  breakOn : Option NodeId := none
  generated : Bool := false

abbrev Assembly := EStateM Fault Assembler

namespace Assembler

def start (descriptor : CallDescriptor) (config : AssemblerConfig) (journal : Journal) :
    Except Fault Assembler := do
  let (id, registry) := Registry.initial.intern descriptor
  let indices := List.range descriptor.parameterCount
  let (parameters, graph) ← indices.foldlM (fun (parameters, graph) index => do
    let (id, graph) ← Graph.addNode graph (.parameter (UInt32.ofNat index)) [Graph.start]
    return (parameters ++ [id], graph)) (([] : List NodeId), ← Graph.withCapacity config.initialCapacity)
  return { graph := graph, registry := registry, journal := journal, descriptor := id, config := config,
           parameters := parameters }

def callDescriptor (a : Assembler) : Except Fault CallDescriptor := a.registry.get a.descriptor

def parameter? (a : Assembler) (index : Nat) : Option NodeId := a.parameters[index]?

def contextParameter? (a : Assembler) : Except Fault (Option NodeId) := do
  return (← a.callDescriptor).contextIndex?.bind a.parameter?

def isReachable (a : Assembler) : Bool := a.current.isSome

def text (a : Assembler) : String :=
  s!"CodeAssembler \x7b descriptor: {a.descriptor.text}, nodes: {a.graph.size}, reachable: {a.isReachable}, .. \x7d"

def liveVariables (a : Assembler) : List (VariableId × VariableInfo) :=
  a.vars.entries.filter fun entry => entry.2.live

end Assembler

namespace Assembly

variable {α : Type}

def ofExcept : Except Fault α → Assembly α
  | .ok value => pure value
  | .error fault => throw fault

def ofBuild (work : Build α) : Assembly α := fun a =>
  match work a.toWorkspace with
  | .ok value work => .ok value { a with toWorkspace := work }
  | .error fault work => .error fault { a with toWorkspace := work }

def report (violation : Violation) : Assembly Unit := ofBuild (Build.report violation)

def checks : Assembly Bool := do return (← get).journal.checks

def constant (value : Constant) : Assembly NodeId := ofBuild (Build.constant value)

def markBreakpoint (id : NodeId) : Assembly Unit := do
  if (← get).breakOn = some id then
    let op ← ofBuild (Build.query fun graph => graph.op id)
    ofBuild do
      Build.note (.breakpoint id op)
      Build.change fun graph => .ok (graph.modifyNode id fun node => { node with breakpoint := true })

def addNode (op : Operator) (inputs : List NodeId) : Assembly NodeId := do
  let id ← ofBuild (Build.addNode op inputs)
  markBreakpoint id
  return id

def position (operation : String) : Assembly Position := do
  match (← get).current with
  | some position => return position
  | none =>
    report (.noCurrentBlock operation)
    return ⟨Graph.start, Graph.start⟩

def setCurrent (current : Option Position) : Assembly Unit := modify fun a => { a with current := current }

def addEffectNode (op : Operator) (values : List NodeId) (operation : String) : Assembly NodeId := do
  let position ← position operation
  let layout ← ofExcept op.checkedLayout
  let effects := if 0 < layout.effects then [position.effect] else []
  let controls := if 0 < layout.controls then [position.control] else []
  let id ← addNode op (values ++ effects ++ controls)
  if let some current := (← get).current then
    setCurrent (some
      { effect := if 0 < op.outputs.effects then id else current.effect
        control := if 0 < op.outputs.controls then id else current.control })
  return id

def addTerminator (op : Operator) (values : List NodeId) (operation : String) : Assembly NodeId := do
  let id ← addEffectNode op values operation
  ofBuild (Build.change fun graph => graph.mergeToEnd id)
  setCurrent none
  return id

def ret (pop : Option NodeId) (values : List NodeId) : Assembly Unit := do
  let pop ←
    match pop with
    | some pop => pure pop
    | none => constant (.int32 0)
  let _ ← addTerminator (.control (.ret (UInt32.ofNat values.length))) (pop :: values) "return"

def debugBreak : Assembly Unit := do
  let _ ← addEffectNode .debugBreak [] "debug_break"

def unreachable : Assembly Unit := do
  debugBreak
  let _ ← addEffectNode .unreachable [] "unreachable"
  let _ ← addTerminator (.control .throw) [] "unreachable"

def comment (text : String) : Assembly Unit := do
  if (← get).config.codeComments then
    let id ← ofBuild (Build.edit fun graph => .ok (graph.addComment text))
    let _ ← addEffectNode (.comment id) [] "comment"

def breakOn (id : NodeId) : Assembly Unit := do
  modify fun a => { a with breakOn := some id }
  if ((← get).graph.node? id).isSome then markBreakpoint id

end Assembly

end SeaOfNodes
