import SeaOfNodes.Exchange.Value
import SeaOfNodes.Operator.Text

/-! Operators as plain data: the mnemonic and then the parameters. -/

namespace SeaOfNodes.Exchange

open Spelled

def external : ExternalReference → Datum
  | .runtimeFunction function => .list [.text "RuntimeFunction", spell function]
  | .rootsArrayStart => .list [.text "RootsArrayStart"]
  | .address value => .list [.text "CFunction", .word64 value]

def readExternal (data : Datum) : Reader ExternalReference := do
  match ← (data.item 0).readText with
  | "RuntimeFunction" => .runtimeFunction <$> readSpelled (data.item 1)
  | "RootsArrayStart" => pure .rootsArrayStart
  | "CFunction" => .address <$> (data.item 1).readWord64
  | _ => .malformed

def builtin : Builtin → Datum
  | .runtimeEntry results => .list [.text "CEntry", .nat results.toNat]
  | .arrayNoArgument kind => .list [.text "ArrayNoArgumentConstructor", spell kind]
  | .arraySingleArgument kind => .list [.text "ArraySingleArgumentConstructor", spell kind]
  | .arrayNArguments => .list [.text "ArrayNArgumentsConstructor"]
  | .fastNewSloppyArguments => .list [.text "FastNewSloppyArguments"]
  | .fastNewStrictArguments => .list [.text "FastNewStrictArguments"]
  | .fastNewRestParameter => .list [.text "FastNewRestParameter"]
  | .fastNewFunctionContext scope => .list [.text "FastNewFunctionContext", spell scope]

def readBuiltin (data : Datum) : Reader Builtin := do
  match ← (data.item 0).readText with
  | "CEntry" => .runtimeEntry <$> (data.item 1).readByte
  | "ArrayNoArgumentConstructor" => .arrayNoArgument <$> readSpelled (data.item 1)
  | "ArraySingleArgumentConstructor" => .arraySingleArgument <$> readSpelled (data.item 1)
  | "ArrayNArgumentsConstructor" => pure .arrayNArguments
  | "FastNewSloppyArguments" => pure .fastNewSloppyArguments
  | "FastNewStrictArguments" => pure .fastNewStrictArguments
  | "FastNewRestParameter" => pure .fastNewRestParameter
  | "FastNewFunctionContext" => .fastNewFunctionContext <$> readSpelled (data.item 1)
  | _ => .malformed

def fieldAccess (access : FieldAccess) : Datum :=
  .list [.text "field", spell access.base, .word access.offset, kinds access.kinds,
    machineType access.machineType, spell access.barrier, .text access.name]

def namedFields : List (String × FieldAccess) :=
  [("for_map", .map), ("for_heap_number_value", .heapNumberValue),
   ("for_js_object_properties_or_hash", .properties), ("for_js_object_elements", .elements),
   ("for_arguments_length", .argumentsLength), ("for_arguments_callee", .argumentsCallee),
   ("for_iter_result_value", .iterResultValue), ("for_iter_result_done", .iterResultDone),
   ("for_regexp_data", .regExpData), ("for_regexp_source", .regExpSource),
   ("for_regexp_flags", .regExpFlags), ("for_regexp_last_index", .regExpLastIndex),
   ("for_generator_function", .generatorFunction), ("for_generator_context", .generatorContext),
   ("for_generator_receiver", .generatorReceiver), ("for_generator_input_or_debug_pos", .generatorInput),
   ("for_generator_resume_mode", .generatorResumeMode),
   ("for_generator_continuation", .generatorContinuation),
   ("for_generator_register_file", .generatorRegisters),
   ("for_async_generator_queue", .asyncGeneratorQueue),
   ("for_async_generator_awaited_promise", .asyncGeneratorAwaited),
   ("for_fixed_array_length", .fixedArrayLength),
   ("for_context_extension_scope_info", .contextExtensionScopeInfo),
   ("for_context_extension_extension", .contextExtension)]

def readProperty (data : Datum) : Reader Property := do
  let name ← (data.item 0).readText
  match ← (data.item 1).readText with
  | "Field" => return ⟨name, .field (← readSpelled (data.item 2)) (← (data.item 3).readWord)⟩
  | "Descriptor" => return ⟨name, .descriptor⟩
  | _ => .malformed

def readMap (data : Datum) : Reader MapInfo := do
  let fresh ←
    match ← (data.field "props").readOption Datum.readWord with
    | some count => Reader.ofFaulty (MapInfo.plainObject count)
    | none => do
      pure { instanceType := ← readSpelled (data.field "type"),
             instanceSize := ← (data.field "size").readWord : MapInfo }
  let inObject ← (data.field "in_object").readOption Datum.readWord
  let kind ← (data.field "kind").readOption readSpelled
  let constructor ← (data.field "constructor").readOption Datum.readObject
  let dictionary ← (data.field "dictionary").readOption Datum.readBool
  let deprecated ← (data.field "deprecated").readOption Datum.readBool
  let fields ← (data.field "fields").readOption (Datum.readList readProperty)
  return { fresh with
    inObjectProperties := inObject.getD fresh.inObjectProperties
    elementsKind := kind.getD fresh.elementsKind
    constructor := constructor
    isDictionary := dictionary.getD false
    isDeprecated := deprecated.getD false
    properties := fields.getD [] }

def readFieldAccess (data : Datum) : Reader FieldAccess := do
  match ← (data.item 0).readText with
  | "field" =>
    return { base := ← readSpelled (data.item 1), offset := ← (data.item 2).readWord,
             kinds := ← readKinds (data.item 3), machineType := ← readMachineType (data.item 4),
             barrier := ← readSpelled (data.item 5), name := ← (data.item 6).readText }
  | "for_js_array_length" => .arrayLength <$> readSpelled (data.item 1)
  | "for_fixed_array_slot" => do Reader.ofFaulty (FieldAccess.fixedArraySlot (← (data.item 1).readWord))
  | "for_context_slot" => do Reader.ofFaulty (FieldAccess.contextSlot (← (data.item 1).readWord))
  | "for_js_object_in_object_property" => do
    Reader.ofFaulty (FieldAccess.inObject (← readMap (data.item 1)) (← (data.item 2).readWord))
  | name => Reader.ofOption (namedFields.lookup name)

def elementAccess (access : ElementAccess) : Datum :=
  .list [.text "element", spell access.base, .word access.header, kinds access.kinds,
    machineType access.machineType, spell access.barrier]

def readElementAccess (data : Datum) : Reader ElementAccess := do
  match ← (data.item 0).readText with
  | "element" =>
    return { base := ← readSpelled (data.item 1), header := ← (data.item 2).readWord,
             kinds := ← readKinds (data.item 3), machineType := ← readMachineType (data.item 4),
             barrier := ← readSpelled (data.item 5) }
  | "for_fixed_array_element" => .fixedArray <$> readSpelled (data.item 1)
  | "for_fixed_double_array_element" => pure .fixedDoubleArray
  | _ => .malformed

def controlParameters : ControlOp → List Datum
  | .stop count | .merge count | .loop count | .switch count | .ret count => [.word count]
  | .ifValue value => [.int32 value]
  | _ => []

def constantParameters : Constant → List Datum
  | .int32 value => [.int32 value]
  | .int64 value => [.int64 value]
  | .float64 value | .number value => [.double value]
  | .heap object => [.object object]
  | .external reference => [external reference]
  | .code stub => [builtin stub]

def creationParameters : Creation → List Datum
  | .arguments kind => [spell kind]
  | .array arity site => [.word arity, .ofOption .object site]
  | .literalArray site | .literalObject site | .literalRegExp site =>
    [.object site.constant, .word site.slot, .word site.length, .word site.flags]
  | .emptyLiteralArray slot => [.word slot]
  | .functionContext slots scope => [.word slots, spell scope]
  | .withContext scopeInfo | .blockContext scopeInfo => [.object scopeInfo]
  | .catchContext name scopeInfo => [.object name, .object scopeInfo]
  | _ => []

def callParameters (site : CallSite) : List Datum :=
  [.nat site.descriptor, .word site.valueInputs, .word site.returns, .bool site.frameState,
   properties site.properties]

def parameters : Operator → List Datum
  | .control op => controlParameters op
  | .phi representation count => [spell representation, .word count]
  | .effectPhi count | .stateValues count => [.word count]
  | .projection index | .parameter index => [.word index]
  | .constant value => constantParameters value
  | .comment id => [.word id]
  | .frameState info =>
    [spell info.kind, .word info.bailoutId, .word info.parameterCount, .word info.localCount,
     .ofOption .object info.sharedInfo]
  | .call site | .tailCall site => callParameters site
  | .machine op => [spell op]
  | .load type | .atomicLoad type => [machineType type]
  | .store representation barrier => [spell representation, spell barrier]
  | .atomicStore representation => [spell representation]
  | .allocate generation => [spell generation]
  | .loadField access | .storeField access => [fieldAccess access]
  | .loadElement access | .storeElement access => [elementAccess access]
  | .argumentsLength formals isRest => [.word formals, .bool isRest]
  | .create request => creationParameters request
  | _ => []

def operator (op : Operator) : Datum := .list (.text op.mnemonic :: parameters op)

def readCallSite (data : Datum) : Reader CallSite := do
  return { descriptor := (← (data.item 1).readWord).toNat, valueInputs := ← (data.item 2).readWord,
           returns := ← (data.item 3).readWord, frameState := ← (data.item 4).readBool,
           properties := ← readProperties (data.item 5) }

def readLiteralSite (data : Datum) : Reader LiteralSite := do
  return { constant := ← (data.item 1).readObject, slot := ← (data.item 2).readWord,
           length := ← (data.item 3).readWord, flags := ← (data.item 4).readWord }

def bareControls : List (String × ControlOp) :=
  [("Start", .start), ("Branch", .branch), ("IfTrue", .ifTrue), ("IfFalse", .ifFalse),
   ("IfDefault", .ifDefault), ("IfSuccess", .ifSuccess), ("IfException", .ifException), ("Throw", .throw)]

def bareCreations : List (String × Creation) :=
  [("JSCreate", .object), ("JSCreateIterResultObject", .iterResult),
   ("JSCreateKeyValueArray", .keyValueArray), ("JSCreateEmptyLiteralObject", .emptyLiteralObject),
   ("JSCreateGeneratorObject", .generator)]

def bareOperators : List (String × Operator) :=
  bareControls.map (fun entry => (entry.1, .control entry.2)) ++
  bareCreations.map (fun entry => (entry.1, .create entry.2)) ++
  [("BeginRegion", .beginRegion), ("FinishRegion", .finishRegion), ("Retain", .retain),
   ("DebugBreak", .debugBreak), ("Unreachable", .unreachable), ("ArgumentsFrame", .argumentsFrame),
   ("NewUnmappedArgumentsElements", .newArgumentsElements), ("CheckSmi", .checkSmi),
   ("CheckNumber", .checkNumber), ("NumberSilenceNaN", .silenceNaN)]

def readConstant? (name : String) (data : Datum) : Option (Reader Constant) :=
  match name with
  | "Int32Constant" => some (.int32 <$> data.readInt32)
  | "Int64Constant" => some (.int64 <$> data.readInt64)
  | "Float64Constant" => some (.float64 <$> data.readDouble)
  | "NumberConstant" => some (.number <$> data.readDouble)
  | "HeapConstant" => some (.heap <$> data.readObject)
  | "ExternalConstant" => some (.external <$> readExternal data)
  | "CodeConstant" => some (.code <$> readBuiltin data)
  | _ => none

def readCreation? (name : String) (data : Datum) : Option (Reader Creation) :=
  let first := data.item 1
  match name with
  | "JSCreateArguments" => some (.arguments <$> readSpelled first)
  | "JSCreateArray" => some do return .array (← first.readWord) (← (data.item 2).readOption Datum.readObject)
  | "JSCreateLiteralArray" => some (.literalArray <$> readLiteralSite data)
  | "JSCreateLiteralObject" => some (.literalObject <$> readLiteralSite data)
  | "JSCreateLiteralRegExp" => some (.literalRegExp <$> readLiteralSite data)
  | "JSCreateEmptyLiteralArray" => some (.emptyLiteralArray <$> first.readWord)
  | "JSCreateFunctionContext" => some do return .functionContext (← first.readWord) (← readSpelled (data.item 2))
  | "JSCreateWithContext" => some (.withContext <$> first.readObject)
  | "JSCreateCatchContext" => some do return .catchContext (← first.readObject) (← (data.item 2).readObject)
  | "JSCreateBlockContext" => some (.blockContext <$> first.readObject)
  | _ => none

def readControl? (name : String) (data : Datum) : Option (Reader ControlOp) :=
  match name with
  | "End" => some (.stop <$> data.readWord)
  | "Merge" => some (.merge <$> data.readWord)
  | "Loop" => some (.loop <$> data.readWord)
  | "Switch" => some (.switch <$> data.readWord)
  | "IfValue" => some (.ifValue <$> data.readInt32)
  | "Return" => some (.ret <$> data.readWord)
  | _ => none

def readOperator (data : Datum) : Reader Operator := do
  let name ← (data.item 0).readText
  let first := data.item 1
  if let some op := bareOperators.lookup name then return op
  if let some reading := readControl? name first then return .control (← reading)
  if let some reading := readConstant? name first then return .constant (← reading)
  if let some reading := readCreation? name data then return .create (← reading)
  match name with
  | "Phi" => return .phi (← readSpelled first) (← (data.item 2).readWord)
  | "EffectPhi" => .effectPhi <$> first.readWord
  | "Projection" => .projection <$> first.readWord
  | "Parameter" => .parameter <$> first.readWord
  | "Comment" => .comment <$> first.readWord
  | "StateValues" => .stateValues <$> first.readWord
  | "FrameState" =>
    return .frameState
      { kind := ← readSpelled first, bailoutId := ← (data.item 2).readWord,
        parameterCount := ← (data.item 3).readWord, localCount := ← (data.item 4).readWord,
        sharedInfo := ← (data.item 5).readOption Datum.readObject }
  | "Call" => .call <$> readCallSite data
  | "TailCall" => .tailCall <$> readCallSite data
  | "Machine" => .machine <$> readSpelled first
  | "Load" => .load <$> readMachineType first
  | "Store" => return .store (← readSpelled first) (← readSpelled (data.item 2))
  | "AtomicLoad" => .atomicLoad <$> readMachineType first
  | "AtomicStore" => .atomicStore <$> readSpelled first
  | "Allocate" => .allocate <$> readSpelled first
  | "LoadField" => .loadField <$> readFieldAccess first
  | "StoreField" => .storeField <$> readFieldAccess first
  | "LoadElement" => .loadElement <$> readElementAccess first
  | "StoreElement" => .storeElement <$> readElementAccess first
  | "ArgumentsLength" => return .argumentsLength (← first.readWord) (← (data.item 2).readBool)
  | _ => .malformed

def inputLayout (layout : InputLayout) : Datum :=
  .list [.nat layout.values, .bool layout.context, .bool layout.frameState, .nat layout.effects,
    .nat layout.controls, .nat layout.contextIndex, .nat layout.frameStateIndex, .nat layout.firstEffect,
    .nat layout.firstControl, .nat layout.total]

def operatorFacts (op : Operator) (arity : UInt32) : List (String × Datum) :=
  let machine := match op with
    | .machine op => .list [.nat op.valueInputs, spell op.representation, .bool op.isCommutative]
    | _ => .null
  [("echo", operator op),
   ("outputs", .list [.nat op.outputs.values, .nat op.outputs.effects, .nat op.outputs.controls]),
   ("properties", properties op.properties),
   ("is", .list ([op.isPure, op.isControl, op.isPhi, op.isTerminator, op.isMerge, op.isConstant,
     op.isCreation].map .bool)),
   ("with_arity", .ofOption operator (op.withArity? arity)), ("mnemonic", .text op.mnemonic),
   ("display", .text op.text), ("machine", machine)]

end SeaOfNodes.Exchange
