import SeaOfNodes.Creation.Config
import SeaOfNodes.Exchange.Operator
import SeaOfNodes.Journal

/-! Call descriptors, violations and limits as plain data. -/

namespace SeaOfNodes.Exchange

open Spelled

def readDescriptor (data : Datum) : Reader CallDescriptor := do
  let word (index : Nat) := (data.item index).readWord
  let flags (index : Nat) := readCallFlags (data.item index)
  let props (index : Nat) := readProperties (data.item index)
  match ← (data.item 0).readText with
  | "runtime" => return .runtime (← readSpelled (data.item 1)) (← word 2) (← props 3) (← flags 4)
  | "stub" => do
    let interface : StubInterface := ⟨← (data.item 1).readText, ← word 2, ← (data.item 3).readBool⟩
    Reader.ofFaulty
      (CallDescriptor.stub interface (← word 4) (← flags 5) (← props 6) (← (data.item 7).readNat))
  | "builtin_stub" => do
    let stub ← readBuiltin (data.item 1)
    Reader.ofFaulty
      (CallDescriptor.stub stub.interface (← word 2) (← flags 3) (← props 4) (← (data.item 5).readNat))
  | "builtin" => do Reader.ofFaulty (CallDescriptor.builtin (← readBuiltin (data.item 1)) (← flags 2))
  | "c" =>
    return .native (← (data.item 1).readOption readMachineType) (← (data.item 2).readList readMachineType)
  | "js" => return .function (← word 1) (← flags 2)
  | "raw" =>
    let fields := data.item 1
    return { kind := ← readSpelled (fields.field "kind")
             returns := ← (fields.field "returns").readList readMachineType
             parameters := ← (fields.field "parameters").readList readMachineType
             registerParameters := ← (fields.field "register_parameter_count").readWord
             jsParameters := ← (fields.field "js_parameter_count").readWord
             properties := ← readProperties (fields.field "properties")
             flags := ← readCallFlags (fields.field "flags")
             name := ← (fields.field "debug_name").readText }
  | _ => .malformed

def location : CallLocation → Datum
  | .register number => .list [.text "Register", .nat number.toNat]
  | .stackSlot index => .list [.text "StackSlot", .word index]

def descriptor (d : CallDescriptor) : Datum :=
  .record
    [("kind", spell d.kind), ("returns", .ofList machineType d.returns),
     ("parameters", .ofList machineType d.parameters),
     ("register_parameter_count", .word d.registerParameters),
     ("stack_parameter_count", .nat d.stackParameterCount),
     ("js_parameter_count", .word d.jsParameters), ("properties", properties d.properties),
     ("flags", callFlags d.flags),
     ("needs",
       .list [.bool d.flags.needsFrameState, .bool d.flags.supportsTailCalls, .bool d.flags.needsContext]),
     ("counts", .list [.nat d.parameterCount, .nat d.returnCount, .nat d.inputCount]),
     ("context_index", .ofOption .nat d.contextIndex?),
     ("locations", .ofList (fun index => location (d.parameterLocation index)) (List.range d.parameterCount)),
     ("return_locations",
       .ofList (fun index => location (d.returnLocation index)) (List.range d.returnCount)),
     ("display", .text d.text)]

def readViolation (data : Datum) : Reader Violation := do
  let text (index : Nat) := (data.item index).readText
  let count (index : Nat) := (data.item index).readNat
  match ← text 0 with
  | "UnboundVariable" => return .unboundVariable (← text 1)
  | "LabelBoundTwice" => return .labelBoundTwice (← text 1)
  | "UnmergedVariable" => return .unmergedVariable (← text 1) (← text 2)
  | "IncompleteMerge" => return .incompleteMerge (← text 1) (← text 2) (← count 3) (← count 4)
  | "BoundLabelReentered" => return .boundLabelReentered (← text 1)
  | "ArityMismatch" => return .arityMismatch (← text 1) (← count 2) (← count 3)
  | "TailCallUnsupported" => return .tailCallUnsupported (← text 1)
  | "NoCurrentBlock" => return .noCurrentBlock (← text 1)
  | "CallbacksAlreadyRegistered" => return .callbacksAlreadyRegistered
  | "CodeAlreadyGenerated" => return .codeAlreadyGenerated
  | "AllocationTooLarge" => return .allocationTooLarge (← (data.item 1).readWord) (← (data.item 2).readWord)
  | _ => .malformed

def readLoweringConfig (data : Datum) : Reader LoweringConfig := do
  let base : LoweringConfig :=
    match data.field "base" with
    | .text "no_inline" => .noInlineAllocation
    | _ => {}
  let word (name : String) (fallback : UInt32) : Reader UInt32 := do
    return (← (data.field name).readOption Datum.readWord).getD fallback
  return { maxLiteralDepth := ← word "max_fast_literal_depth" base.maxLiteralDepth
           maxLiteralProperties := ← word "max_fast_literal_properties" base.maxLiteralProperties
           elementUnrollLimit := ← word "element_loop_unroll_limit" base.elementUnrollLimit
           maxInlineArrayValues := ← word "max_inline_array_values" base.maxInlineArrayValues
           maxObjectSize := ← word "max_regular_heap_object_size" base.maxObjectSize
           functionContextLimit := ← word "function_context_allocation_limit" base.functionContextLimit
           blockContextLimit := ← word "block_context_allocation_limit" base.blockContextLimit
           sitePretenuring :=
             (← (data.field "allocation_site_pretenuring").readOption Datum.readBool).getD
               base.sitePretenuring }

def logLine (entry : LogEntry) : Datum :=
  let mark :=
    match entry.level with
    | .error => "E"
    | .warning => "W"
    | .debug => "D"
  .text s!"{mark} {entry.message}"

end SeaOfNodes.Exchange
