import SeaOfNodes.Operator.Basic

/-! The static shape of an operator. -/

namespace SeaOfNodes

structure InputLayout where
  values : Nat
  context : Bool
  frameState : Bool
  effects : Nat
  controls : Nat
deriving DecidableEq, Repr

namespace InputLayout

def plain (values effects controls : Nat) : InputLayout := ⟨values, false, false, effects, controls⟩

def creation (values : Nat) (frameState : Bool) : InputLayout := ⟨values, true, frameState, 1, 1⟩

def contextIndex (layout : InputLayout) : Nat := layout.values

def frameStateIndex (layout : InputLayout) : Nat := layout.values + layout.context.toNat

def firstEffect (layout : InputLayout) : Nat := layout.frameStateIndex + layout.frameState.toNat

def firstControl (layout : InputLayout) : Nat := layout.firstEffect + layout.effects

def total (layout : InputLayout) : Nat := layout.firstControl + layout.controls

end InputLayout

structure OutputCounts where
  values : Nat
  effects : Nat
  controls : Nat
deriving DecidableEq, Repr

def ControlOp.layout : ControlOp → InputLayout
  | .start => .plain 0 0 0
  | .stop count | .merge count | .loop count => .plain 0 0 count.toNat
  | .branch | .switch _ => .plain 1 0 1
  | .ifTrue | .ifFalse | .ifValue _ | .ifDefault | .ifSuccess => .plain 0 0 1
  | .ifException | .throw => .plain 0 1 1
  | .ret count => .plain (count.toNat + 1) 1 1

def Creation.layout : Creation → InputLayout
  | .object => .creation 2 true
  | .arguments _ => .creation 1 true
  | .array arity _ => .creation (2 + arity.toNat) true
  | .iterResult | .keyValueArray => .creation 2 false
  | .literalArray _ | .literalObject _ | .literalRegExp _ => .creation 1 true
  | .emptyLiteralArray _ => .creation 1 false
  | .emptyLiteralObject => .creation 0 false
  | .functionContext .. | .blockContext _ => .creation 1 false
  | .withContext _ | .catchContext .. => .creation 2 false
  | .generator => .creation 2 false

namespace Operator

def layout : Operator → InputLayout
  | control op => op.layout
  | phi _ count => .plain count.toNat 0 1
  | effectPhi count => .plain 0 count.toNat 1
  | projection _ => .plain 1 0 0
  | parameter _ => .plain 0 0 1
  | constant _ => .plain 0 0 0
  | beginRegion => .plain 0 1 0
  | finishRegion | retain => .plain 1 1 0
  | comment _ | debugBreak | unreachable => .plain 0 1 1
  | stateValues count => .plain count.toNat 0 0
  | frameState _ => .plain FrameStateInput.count 0 0
  | call site | tailCall site => ⟨site.valueInputs.toNat, false, site.frameState, 1, 1⟩
  | machine op => .plain op.valueInputs 0 0
  | load _ | atomicLoad _ => .plain 2 1 1
  | store .. | atomicStore _ => .plain 3 1 1
  | allocate _ => .plain 1 1 1
  | loadField _ => .plain 1 1 1
  | storeField _ => .plain 2 1 1
  | loadElement _ => .plain 2 1 1
  | storeElement _ => .plain 3 1 1
  | argumentsFrame => .plain 0 0 0
  | argumentsLength .. => .plain 1 0 0
  | newArgumentsElements => .plain 2 1 0
  | checkSmi | checkNumber => .plain 1 1 1
  | silenceNaN => .plain 1 0 0
  | create request => request.layout

def fits (op : Operator) : Bool := op.layout.values < UInt32.size

def checkedLayout (op : Operator) : Except Fault InputLayout :=
  if op.fits then .ok op.layout else .error .overflow

def outputs : Operator → OutputCounts
  | control .start | control .ifException => ⟨1, 1, 1⟩
  | control (.stop _) => ⟨0, 0, 0⟩
  | control _ => ⟨0, 0, 1⟩
  | phi .. | projection _ | parameter _ | stateValues _ | frameState _ | constant _ => ⟨1, 0, 0⟩
  | effectPhi _ | beginRegion | comment _ | debugBreak | unreachable | retain => ⟨0, 1, 0⟩
  | finishRegion => ⟨1, 1, 0⟩
  | call site => ⟨site.returns.toNat, 1, 1⟩
  | tailCall _ => ⟨0, 0, 1⟩
  | machine _ | argumentsFrame | argumentsLength .. | silenceNaN => ⟨1, 0, 0⟩
  | load _ | atomicLoad _ | loadField _ | loadElement _ => ⟨1, 1, 0⟩
  | store .. | atomicStore _ | storeField _ | storeElement _ => ⟨0, 1, 0⟩
  | allocate _ | newArgumentsElements | checkSmi | checkNumber => ⟨1, 1, 0⟩
  | create _ => ⟨1, 1, 1⟩

def properties : Operator → Properties
  | constant _ | parameter _ | projection _ | phi .. | stateValues _ | frameState _
  | argumentsFrame | argumentsLength .. | silenceNaN => .pure
  | machine op => if op.isCommutative then Properties.pure ||| .commutative else .pure
  | control _ | effectPhi _ => .foldable
  | beginRegion | finishRegion | retain | comment _ | debugBreak => Properties.noThrow ||| .noDeopt
  | load _ | loadField _ | loadElement _ | atomicLoad _ => .eliminatable
  | store .. | storeField _ | storeElement _ | atomicStore _ =>
    Properties.noRead ||| .noThrow ||| .noDeopt
  | allocate _ | newArgumentsElements => .eliminatable
  | checkSmi | checkNumber => Properties.foldable ||| .noThrow
  | call site | tailCall site => site.properties
  | unreachable => .none
  | create .iterResult | create .keyValueArray => .eliminatable
  | create _ => .none

def isPure (op : Operator) : Bool := op.properties.includes .pure

def isControl (op : Operator) : Bool := 0 < op.outputs.controls

def isPhi : Operator → Bool
  | phi .. | effectPhi _ => true
  | _ => false

def isTerminator : Operator → Bool
  | control .throw | control (.ret _) | tailCall _ => true
  | _ => false

def isMerge : Operator → Bool
  | control (.merge _) | control (.loop _) => true
  | _ => false

def isConstant : Operator → Bool
  | constant _ => true
  | _ => false

def isCreation : Operator → Bool
  | create _ => true
  | _ => false

def withArity? (count : UInt32) : Operator → Option Operator
  | control (.stop _) => some (control (.stop count))
  | control (.merge _) => some (control (.merge count))
  | control (.loop _) => some (control (.loop count))
  | phi representation _ => some (phi representation count)
  | effectPhi _ => some (effectPhi count)
  | stateValues _ => some (stateValues count)
  | _ => none

end Operator

end SeaOfNodes
