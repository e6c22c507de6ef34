import SeaOfNodes.Assembler.Call
import SeaOfNodes.Assembler.Label
import SeaOfNodes.Code.Compile

/-! The steps that an assembler takes, as data. -/

namespace SeaOfNodes

inductive Command where
  | constant (value : Constant)
  | smallConstant (value : Int32)
  | machine (op : MachineOp) (inputs : List NodeId)
  | int32Add (left right : NodeId)
  | wordAdd (left right : NodeId)
  | wordSub (left right : NodeId)
  | wordShiftLeft (value amount : NodeId)
  | wordShiftRight (value amount : NodeId)
  | extend (value : NodeId)
  | truncate (value : NodeId)
  | tagSmall (value : NodeId)
  | untagSmall (value : NodeId)
  | load (type : MachineType) (base offset : NodeId)
  | atomicLoad (type : MachineType) (base offset : NodeId)
  | loadRoot (index : RootIndex)
  | store (representation : Representation) (barrier : WriteBarrier) (base offset value : NodeId)
  | atomicStore (representation : Representation) (base offset value : NodeId)
  | storeRoot (index : RootIndex) (value : NodeId)
  | retain (value : NodeId)
  | projection (index : UInt32) (node : NodeId)
  | ret (values : List NodeId)
  | popAndReturn (pop value : NodeId)
  | debugBreak
  | unreachable
  | comment (text : String)
  | breakOn (id : NodeId)
  | newVariable (name : Option String) (representation : Representation) (value : Option NodeId)
  | bindVariable (var : VariableId) (value : NodeId)
  | readVariable (var : VariableId)
  | releaseVariable (var : VariableId)
  | newLabel (kind : LabelKind) (declared : List VariableId)
  | bind (label : LabelId)
  | goto (label : LabelId)
  | gotoIf (condition : NodeId) (label : LabelId)
  | gotoIfNot (condition : NodeId) (label : LabelId)
  | branch (condition : NodeId) (ifTrue ifFalse : LabelId)
  | switch (index : NodeId) (default : LabelId) (cases : List (Int32 × LabelId))
  | gotoIfException (call : NodeId) (handler : LabelId) (exception : Option VariableId)
  | returnIf (condition value : NodeId)
  | call (descriptor : DescriptorId) (target : NodeId) (context : Option NodeId) (arguments : List NodeId)
  | callAll (descriptor : DescriptorId) (target : NodeId) (context : Option NodeId) (arguments : List NodeId)
  | callBuiltin (builtin : Builtin) (context : Option NodeId) (arguments : List NodeId)
  | callRuntime (function : RuntimeFunction) (context : NodeId) (arguments : List NodeId)
  | callNative (function : ExternalReference) (result : Option MachineType)
      (arguments : List (MachineType × NodeId))
  | tailCall (descriptor : DescriptorId) (target : NodeId) (context : Option NodeId) (arguments : List NodeId)
  | tailCallRuntime (function : RuntimeFunction) (context : NodeId) (arguments : List NodeId)
  | abort (context : NodeId) (reason : Int32)
  | registerHooks (prologue epilogue : Hook)
  | unregisterHooks
deriving DecidableEq, Repr

inductive Outcome where
  | nothing
  | node (id : NodeId)
  | nodes (ids : List NodeId)
  | variableId (id : VariableId)
  | labelId (id : LabelId)
deriving DecidableEq, Repr

namespace Command

def run : Command → Assembly Outcome
  | .constant value => .node <$> Assembly.constant value
  | .smallConstant value => .node <$> Assembly.smallConstant value
  | .machine op inputs => .node <$> Assembly.machine op inputs
  | .int32Add left right => .node <$> Assembly.int32Add left right
  | .wordAdd left right => .node <$> Assembly.wordAdd left right
  | .wordSub left right => .node <$> Assembly.wordSub left right
  | .wordShiftLeft value amount => .node <$> Assembly.wordShiftLeft value amount
  | .wordShiftRight value amount => .node <$> Assembly.wordShiftRight value amount
  | .extend value => .node <$> Assembly.extend value
  | .truncate value => .node <$> Assembly.truncate value
  | .tagSmall value => .node <$> Assembly.tagSmall value
  | .untagSmall value => .node <$> Assembly.untagSmall value
  | .load type base offset => .node <$> Assembly.load type base offset
  | .atomicLoad type base offset => .node <$> Assembly.atomicLoad type base offset
  | .loadRoot index => .node <$> Assembly.loadRoot index
  | .store representation barrier base offset value =>
    .node <$> Assembly.store representation barrier base offset value
  | .atomicStore representation base offset value =>
    .node <$> Assembly.atomicStore representation base offset value
  | .storeRoot index value => .node <$> Assembly.storeRoot index value
  | .retain value => .node <$> Assembly.retain value
  | .projection index node => .node <$> Assembly.projection index node
  | .ret values => do
    Assembly.ofExcept (require (1 ≤ values.length && values.length ≤ 3))
    Assembly.ret none values
    return .nothing
  | .popAndReturn pop value => do
    Assembly.ret (some pop) [value]
    return .nothing
  | .debugBreak => do
    Assembly.debugBreak
    return .nothing
  | .unreachable => do
    Assembly.unreachable
    return .nothing
  | .comment text => do
    Assembly.comment text
    return .nothing
  | .breakOn id => do
    Assembly.breakOn id
    return .nothing
  | .newVariable name representation value => do
    let id ← Assembly.newVariable name representation
    if value.isSome then Assembly.setVariable id value
    return .variableId id
  | .bindVariable var value => do
    Assembly.setVariable var (some value)
    return .nothing
  | .readVariable var => do
    return .node ((← Assembly.variableValue var).getD Handle.invalid)
  | .releaseVariable var => do
    Assembly.releaseVariable var
    return .nothing
  | .newLabel kind declared => .labelId <$> Assembly.newLabel kind declared
  | .bind label => do
    Assembly.bind label
    return .nothing
  | .goto label => do
    Assembly.goto label
    return .nothing
  | .gotoIf condition label => do
    Assembly.gotoIf condition label
    return .nothing
  | .gotoIfNot condition label => do
    Assembly.gotoIfNot condition label
    return .nothing
  | .branch condition ifTrue ifFalse => do
    Assembly.branch condition ifTrue ifFalse
    return .nothing
  | .switch index default cases => do
    Assembly.switch index default cases
    return .nothing
  | .gotoIfException site handler exception => do
    Assembly.gotoIfException site handler exception
    return .nothing
  | .returnIf condition value => do
    Assembly.returnIf condition value
    return .nothing
  | .call descriptor target context arguments =>
    .node <$> Assembly.call descriptor target context arguments false
  | .callAll descriptor target context arguments =>
    .nodes <$> Assembly.callAll descriptor target context arguments
  | .callBuiltin builtin context arguments => .node <$> Assembly.callBuiltin builtin context arguments
  | .callRuntime function context arguments =>
    .node <$> Assembly.callRuntime function context arguments false
  | .callNative function result arguments => .node <$> Assembly.callNative function result arguments
  | .tailCall descriptor target context arguments => do
    let _ ← Assembly.call descriptor target context arguments true
    return .nothing
  | .tailCallRuntime function context arguments => do
    let _ ← Assembly.callRuntime function context arguments true
    return .nothing
  | .abort context reason => do
    Assembly.abort context reason
    return .nothing
  | .registerHooks prologue epilogue => do
    Assembly.registerHooks prologue epilogue
    return .nothing
  | .unregisterHooks => do
    Assembly.unregisterHooks
    return .nothing

end Command

namespace Assembly

def generate (name : String) (flags : CodeFlags) (limit : Nat) : Assembly (Except CompileError Listing) := do
  if (← get).generated then report .codeAlreadyGenerated
  modify fun a => { a with generated := true }
  let descriptor ← ofExcept (← get).callDescriptor
  ofBuild do
    Build.note (.generating name (← get).graph.size)
    (Build.compile descriptor name flags limit).run

end Assembly

end SeaOfNodes
