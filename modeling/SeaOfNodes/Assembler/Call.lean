import SeaOfNodes.Assembler.Word

/-! Calls. -/

namespace SeaOfNodes.Assembly

def registerHooks (prologue epilogue : Hook) : Assembly Unit := do
  let a ← get
  if a.prologue.isSome || a.epilogue.isSome then report .callbacksAlreadyRegistered
  modify fun a => { a with prologue := some prologue, epilogue := some epilogue }

def unregisterHooks : Assembly Unit := modify fun a => { a with prologue := none, epilogue := none }

def runHook : Hook → Assembly Unit
  | .nothing => pure ()
  | .debugBreak => debugBreak
  | .comment text => comment text
  | .unregister => unregisterHooks
  | .register => registerHooks .nothing .debugBreak

def runPrologue : Assembly Unit := do
  if let some hook := (← get).prologue then
    modify fun a => { a with prologue := none }
    runHook hook
    modify fun a => { a with prologue := a.prologue.or (some hook) }

def runEpilogue : Assembly Unit := do
  if let some hook := (← get).epilogue then
    modify fun a => { a with epilogue := none }
    runHook hook
    modify fun a => { a with epilogue := a.epilogue.or (some hook) }

def checkCall (callee : CallDescriptor) (arguments : Nat) (tail : Bool) : Assembly Unit := do
  if ← checks then
    if arguments ≠ callee.parameterCount then
      report (.arityMismatch callee.name callee.parameterCount arguments)
    if tail && !callee.flags.supportsTailCalls then report (.tailCallUnsupported callee.name)

def call (descriptor : DescriptorId) (target : NodeId) (context : Option NodeId) (arguments : List NodeId)
    (tail : Bool) : Assembly NodeId := do
  let callee ← ofExcept ((← get).registry.get descriptor)
  let arguments := arguments ++ context.toList
  checkCall callee arguments.length tail
  let site : CallSite :=
    { descriptor := descriptor
      valueInputs := UInt32.ofNat (arguments.length + 1)
      returns := UInt32.ofNat callee.returnCount
      frameState := false
      properties := callee.properties }
  if tail then addTerminator (.tailCall site) (target :: arguments) "tail_call"
  else
    runPrologue
    let id ← addEffectNode (.call site) (target :: arguments) "call"
    runEpilogue
    return id

def callAll (descriptor : DescriptorId) (target : NodeId) (context : Option NodeId)
    (arguments : List NodeId) : Assembly (List NodeId) := do
  let id ← call descriptor target context arguments false
  let callee ← ofExcept ((← get).registry.get descriptor)
  (List.range callee.returnCount).mapM fun index => projection (UInt32.ofNat index) id

def callBuiltin (builtin : Builtin) (context : Option NodeId) (arguments : List NodeId) :
    Assembly NodeId := do
  let descriptor ← ofBuild (Build.intern (← ofExcept (CallDescriptor.builtin builtin {})))
  let target ← constant (.code builtin)
  call descriptor target context arguments false

def callRuntime (function : RuntimeFunction) (context : NodeId) (arguments : List NodeId) (tail : Bool) :
    Assembly NodeId := do
  let descriptor ← ofBuild (Build.intern (.runtime function (UInt32.ofNat arguments.length) .none
    { supportsTailCalls := tail }))
  let entry ← constant (.code (.runtimeEntry function.resultSize))
  if ← checks then
    if let some arity := function.arity? then
      if arity.toNat ≠ arguments.length then
        report (.arityMismatch function.text arity.toNat arguments.length)
  let routine ← constant (.external (.runtimeFunction function))
  let count ← constant (.int32 (Int32.ofNat arguments.length))
  call descriptor entry (some context) (arguments ++ [routine, count]) tail

def callNative (function : ExternalReference) (result : Option MachineType)
    (arguments : List (MachineType × NodeId)) : Assembly NodeId := do
  let descriptor ← ofBuild (Build.intern (.native result (arguments.map (·.1))))
  let target ← constant (.external function)
  call descriptor target none (arguments.map (·.2)) false

def abort (context : NodeId) (reason : Int32) : Assembly Unit := do
  let reason ← smallConstant reason
  let _ ← callRuntime .abort context [reason] false
  unreachable

end SeaOfNodes.Assembly
