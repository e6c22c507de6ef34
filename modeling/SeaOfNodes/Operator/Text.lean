import SeaOfNodes.Operator.Shape

namespace SeaOfNodes

def ControlOp.mnemonic : ControlOp → String
  | .start => "Start"
  | .stop _ => "End"
  | .merge _ => "Merge"
  | .loop _ => "Loop"
  | .branch => "Branch"
  | .ifTrue => "IfTrue"
  | .ifFalse => "IfFalse"
  | .switch _ => "Switch"
  | .ifValue _ => "IfValue"
  | .ifDefault => "IfDefault"
  | .ifSuccess => "IfSuccess"
  | .ifException => "IfException"
  | .ret _ => "Return"
  | .throw => "Throw"

def Constant.mnemonic : Constant → String
  | .int32 _ => "Int32Constant"
  | .int64 _ => "Int64Constant"
  | .float64 _ => "Float64Constant"
  | .number _ => "NumberConstant"
  | .heap _ => "HeapConstant"
  | .external _ => "ExternalConstant"
  | .code _ => "CodeConstant"

def Constant.valueText : Constant → String
  | .int32 value => toString value
  | .int64 value => toString value
  | .float64 value | .number value => value.text
  | .heap object => object.text
  | .external reference => reference.text
  | .code builtin => builtin.text

def Creation.mnemonic : Creation → String
  | .object => "JSCreate"
  | .arguments _ => "JSCreateArguments"
  | .array .. => "JSCreateArray"
  | .iterResult => "JSCreateIterResultObject"
  | .keyValueArray => "JSCreateKeyValueArray"
  | .literalArray _ => "JSCreateLiteralArray"
  | .literalObject _ => "JSCreateLiteralObject"
  | .literalRegExp _ => "JSCreateLiteralRegExp"
  | .emptyLiteralArray _ => "JSCreateEmptyLiteralArray"
  | .emptyLiteralObject => "JSCreateEmptyLiteralObject"
  | .functionContext .. => "JSCreateFunctionContext"
  | .withContext _ => "JSCreateWithContext"
  | .catchContext .. => "JSCreateCatchContext"
  | .blockContext _ => "JSCreateBlockContext"
  | .generator => "JSCreateGeneratorObject"

namespace Operator

def mnemonic : Operator → String
  | control op => op.mnemonic
  | phi .. => "Phi"
  | effectPhi _ => "EffectPhi"
  | projection _ => "Projection"
  | parameter _ => "Parameter"
  | constant value => value.mnemonic
  | beginRegion => "BeginRegion"
  | finishRegion => "FinishRegion"
  | retain => "Retain"
  | comment _ => "Comment"
  | debugBreak => "DebugBreak"
  | unreachable => "Unreachable"
  | stateValues _ => "StateValues"
  | frameState _ => "FrameState"
  | call _ => "Call"
  | tailCall _ => "TailCall"
  | machine _ => "Machine"
  | load _ => "Load"
  | store .. => "Store"
  | atomicLoad _ => "AtomicLoad"
  | atomicStore _ => "AtomicStore"
  | allocate _ => "Allocate"
  | loadField _ => "LoadField"
  | storeField _ => "StoreField"
  | loadElement _ => "LoadElement"
  | storeElement _ => "StoreElement"
  | argumentsFrame => "ArgumentsFrame"
  | argumentsLength .. => "ArgumentsLength"
  | newArgumentsElements => "NewUnmappedArgumentsElements"
  | checkSmi => "CheckSmi"
  | checkNumber => "CheckNumber"
  | silenceNaN => "NumberSilenceNaN"
  | create request => request.mnemonic

def text (op : Operator) : String :=
  match op with
  | machine op => op.name
  | phi representation _ => s!"Phi[{representation.text}]"
  | projection index | parameter index => s!"{op.mnemonic}[{index}]"
  | control (.ifValue value) => s!"IfValue[{value}]"
  | constant value => s!"{op.mnemonic}[{value.valueText}]"
  | call site | tailCall site => s!"{op.mnemonic}[{site.descriptor.text}]"
  | load type | atomicLoad type => s!"{op.mnemonic}[{type.representation.text}]"
  | store representation barrier => s!"Store[{representation.text}, {barrier.name}]"
  | allocate generation => s!"Allocate[{generation.name}]"
  | loadField access | storeField access =>
    s!"{op.mnemonic}[{access.name}+{access.offset}, {access.barrier.name}]"
  | loadElement access | storeElement access => s!"{op.mnemonic}[+{access.header}, {access.barrier.name}]"
  | _ => op.mnemonic

end Operator

end SeaOfNodes
