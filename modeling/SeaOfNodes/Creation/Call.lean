import SeaOfNodes.Creation.Plan

/-! Calls in place of creations that are not expanded inline. -/

namespace SeaOfNodes.CreationCall

def become (id : NodeId) (descriptor : DescriptorId) (values : List NodeId) : Build Reduction := do
  let callee ← Build.ofExcept ((← get).registry.get descriptor)
  let context? ← Build.query fun graph => graph.contextInput? id
  let context := if callee.flags.needsContext then context?.toList else []
  let frameState? ← Build.query fun graph => graph.frameStateInput? id
  let frameState := if callee.flags.needsFrameState then frameState?.toList else []
  let effect ← Build.query fun graph => graph.effectInput id
  let control ← Build.query fun graph => graph.controlInput id
  let values := values ++ context
  if (← Build.checks) && values.length != callee.inputCount then
    Build.report (.arityMismatch callee.name callee.inputCount values.length)
  Build.change fun graph => graph.trimInputs id 0
  (values ++ frameState ++ [effect, control]).forM fun input =>
    Build.change fun graph => graph.appendInput id input
  Build.change fun graph => graph.changeOp id <| .call
    { descriptor := descriptor
      valueInputs := UInt32.ofNat values.length
      returns := UInt32.ofNat callee.returnCount
      frameState := !frameState.isEmpty
      properties := callee.properties }
  return .changed id

def runtime (id : NodeId) (function : RuntimeFunction) (arguments : List NodeId) : Build Reduction := do
  if ← Build.checks then
    if let some arity := function.arity? then
      if arity.toNat != arguments.length then
        Build.report (.arityMismatch function.text arity.toNat arguments.length)
  let frameState? ← Build.query fun graph => graph.frameStateInput? id
  let op ← Build.query fun graph => graph.op id
  let descriptor ← Build.intern (.runtime function (UInt32.ofNat arguments.length) op.properties
    { needsFrameState := frameState?.isSome })
  let entry ← Build.constant (.code (.runtimeEntry function.resultSize))
  let routine ← Build.constant (.external (.runtimeFunction function))
  let count ← Build.constant (.int32 (Int32.ofNat arguments.length))
  become id descriptor (entry :: arguments ++ [routine, count])

def builtin (id : NodeId) (builtin : Builtin) (arguments : List NodeId) : Build Reduction := do
  let descriptor ← Build.intern (← Build.ofExcept (CallDescriptor.builtin builtin {}))
  let code ← Build.constant (.code builtin)
  become id descriptor (code :: arguments)

def argumentsBuiltin : ArgumentsKind → Builtin
  | .mapped => .fastNewSloppyArguments
  | .unmapped => .fastNewStrictArguments
  | .rest => .fastNewRestParameter

def arrayBuiltin (kind : ElementsKind) (arity : UInt32) : Builtin :=
  if arity = 0 then .arrayNoArgument kind
  else if arity = 1 then .arraySingleArgument kind.toHoley
  else .arrayNArguments

def array (heap : Snapshot) (id : NodeId) (arity : UInt32) (site : Option ObjectRef) : Build Reduction := do
  let kind := ((site.bind heap.allocationSite?).map AllocationSite.elementsKind).getD .packedSmi
  let builtin := arrayBuiltin kind arity
  let op ← Build.query fun graph => graph.op id
  let stack ← Build.ofExcept (checkedAdd arity 1)
  let descriptor ← Build.intern
    (← Build.ofExcept (CallDescriptor.stub builtin.interface stack { needsFrameState := true } op.properties 1))
  let target ← Build.query fun graph => graph.valueInput id 0
  let values ← Build.query fun graph => graph.valueInputs id
  Build.ofExcept (require (2 ≤ values.length))
  let code ← Build.constant (.code builtin)
  let site ← Build.constant (.heap (site.getD Root.undefined))
  let count ← Build.constant (.int32 arity.toInt32)
  let receiver ← Build.constant (.heap Root.undefined)
  become id descriptor ([code, target, site, count, receiver] ++ values.drop 2)

def literal (id : NodeId) (function : RuntimeFunction) (site : LiteralSite) : Build Reduction := do
  let closure ← Build.query fun graph => graph.valueInput id 0
  let slot ← Build.constant (.number (.ofUInt32 site.slot))
  let constant ← Build.constant (.heap site.constant)
  let flags ← Build.constant (.number (.ofUInt32 site.flags))
  runtime id function [closure, slot, constant, flags]

def maxStubSlots : UInt32 := 0x8000

def functionContext (id : NodeId) (slots : UInt32) (scope : Scope) : Build Reduction := do
  let closure ← Build.query fun graph => graph.valueInput id 0
  if slots ≤ maxStubSlots then
    let slots ← Build.constant (.int32 slots.toInt32)
    builtin id (.fastNewFunctionContext scope) [closure, slots]
  else
    let scope ← Build.constant (.number (.ofInt scope.ctorIdx))
    runtime id .newFunctionContext [closure, scope]

def reduceCreation (heap : Snapshot) (id : NodeId) (values : List NodeId) : Creation → Build Reduction
  | .object => runtime id .newObject values
  | .arguments kind => do
    let callee ← Build.query fun graph => graph.valueInput id 0
    builtin id (argumentsBuiltin kind) [callee]
  | .array arity site => array heap id arity site
  | .iterResult => runtime id .createIterResultObject values
  | .keyValueArray => runtime id .createKeyValueArray values
  | .literalArray site => literal id .createArrayLiteral site
  | .literalObject site => literal id .createObjectLiteral site
  | .literalRegExp site => literal id .createRegExpLiteral site
  | .emptyLiteralArray slot => do
    let closure ← Build.query fun graph => graph.valueInput id 0
    let slot ← Build.constant (.number (.ofUInt32 slot))
    runtime id .createEmptyArrayLiteral [closure, slot]
  | .emptyLiteralObject => runtime id .createEmptyObjectLiteral []
  | .functionContext slots scope => functionContext id slots scope
  | .withContext scopeInfo => do
    let scopeInfo ← Build.constant (.heap scopeInfo)
    let object ← Build.ofExcept (present values[0]?)
    let closure ← Build.ofExcept (present values[1]?)
    runtime id .pushWithContext [object, scopeInfo, closure]
  | .catchContext name scopeInfo => do
    let exception ← Build.query fun graph => graph.valueInput id 0
    let closure ← Build.query fun graph => graph.valueInput id 1
    let name ← Build.constant (.heap name)
    let scopeInfo ← Build.constant (.heap scopeInfo)
    runtime id .pushCatchContext [name, exception, scopeInfo, closure]
  | .blockContext scopeInfo => do
    let scopeInfo ← Build.constant (.heap scopeInfo)
    let closure ← Build.ofExcept (present values[0]?)
    runtime id .pushBlockContext [scopeInfo, closure]
  | .generator => runtime id .createGeneratorObject values

def reduce (heap : Snapshot) (id : NodeId) : Build Reduction := do
  match ← Build.query fun graph => graph.op id with
  | .create request =>
    let values ← Build.query fun graph => graph.valueInputs id
    reduceCreation heap id values request
  | _ => return .unchanged

end SeaOfNodes.CreationCall
