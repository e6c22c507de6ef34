import SeaOfNodes.Call.Registry
import SeaOfNodes.Double.Shortest
import SeaOfNodes.Operator.Access
import SeaOfNodes.Operator.Machine

/-!
The operations that nodes carry: control flow, merges, constants, regions and frame states, calls, machine arithmetic and memory,
tagged object access, and the creation of objects that lowering turns into allocations or calls.
-/

namespace SeaOfNodes

inductive ControlOp where
  | start
  | stop (count : UInt32)
  | merge (count : UInt32)
  | loop (count : UInt32)
  | branch
  | ifTrue
  | ifFalse
  | switch (count : UInt32)
  | ifValue (value : Int32)
  | ifDefault
  | ifSuccess
  | ifException
  | ret (count : UInt32)
  | throw
deriving DecidableEq, Repr

inductive Constant where
  | int32 (value : Int32)
  | int64 (value : Int64)
  | float64 (value : Double)
  | number (value : Double)
  | heap (object : ObjectRef)
  | external (reference : ExternalReference)
  | code (builtin : Builtin)
deriving DecidableEq, Repr

inductive FrameStateKind where
  | interpreted
  | argumentsAdaptor
  | constructStub
deriving DecidableEq, Repr

structure FrameStateInfo where
  kind : FrameStateKind
  bailoutId : UInt32
  parameterCount : UInt32
  localCount : UInt32
  sharedInfo : Option ObjectRef
deriving DecidableEq, Repr

structure CallSite where
  descriptor : DescriptorId
  valueInputs : UInt32
  returns : UInt32
  frameState : Bool
  properties : Properties
deriving DecidableEq, Repr

inductive ArgumentsKind where
  | mapped
  | unmapped
  | rest
deriving DecidableEq, Repr

structure LiteralSite where
  constant : ObjectRef
  slot : UInt32
  length : UInt32
  flags : UInt32
deriving DecidableEq, Repr

inductive Creation where
  | object
  | arguments (kind : ArgumentsKind)
  | array (arity : UInt32) (site : Option ObjectRef)
  | iterResult
  | keyValueArray
  | literalArray (site : LiteralSite)
  | literalObject (site : LiteralSite)
  | literalRegExp (site : LiteralSite)
  | emptyLiteralArray (slot : UInt32)
  | emptyLiteralObject
  | functionContext (slots : UInt32) (scope : Scope)
  | withContext (scopeInfo : ObjectRef)
  | catchContext (name scopeInfo : ObjectRef)
  | blockContext (scopeInfo : ObjectRef)
  | generator
deriving DecidableEq, Repr

inductive Operator where
  | control (op : ControlOp)
  | phi (representation : Representation) (count : UInt32)
  | effectPhi (count : UInt32)
  | projection (index : UInt32)
  | parameter (index : UInt32)
  | constant (value : Constant)
  | beginRegion
  | finishRegion
  | retain
  | comment (id : UInt32)
  | debugBreak
  | unreachable
  | stateValues (count : UInt32)
  | frameState (info : FrameStateInfo)
  | call (site : CallSite)
  | tailCall (site : CallSite)
  | machine (op : MachineOp)
  | load (type : MachineType)
  | store (representation : Representation) (barrier : WriteBarrier)
  | atomicLoad (type : MachineType)
  | atomicStore (representation : Representation)
  | allocate (generation : Generation)
  | loadField (access : FieldAccess)
  | storeField (access : FieldAccess)
  | loadElement (access : ElementAccess)
  | storeElement (access : ElementAccess)
  | argumentsFrame
  | argumentsLength (formals : UInt32) (isRest : Bool)
  | newArgumentsElements
  | checkSmi
  | checkNumber
  | silenceNaN
  | create (request : Creation)
deriving DecidableEq, Repr

/-! Input positions of a frame state. -/

namespace FrameStateInput

def parameters : Nat := 0
def locals : Nat := 1
def stack : Nat := 2
def context : Nat := 3
def function : Nat := 4
def outer : Nat := 5
def count : Nat := 6

end FrameStateInput

end SeaOfNodes
