import SeaOfNodes.Assembler.Command
import SeaOfNodes.Exchange.Call
import SeaOfNodes.Reducer

/-! Nodes, schedules, listings and the results of compiling and reducing as plain data. -/

namespace SeaOfNodes.Exchange

open Spelled

def node (id : NodeId) (node : Node) (users : List NodeId) : Datum :=
  .list [.nat id, operator node.op, .ofList .nat node.inputs, valueType node.type, .ofList .nat users,
    .nat ((if node.dead then 1 else 0) + if node.breakpoint then 4 else 0)]

def changedNodes (before after : Graph) : List Datum :=
  after.nodes.entries.filterMap fun (id, current) =>
    if before.node? id = some current && before.usesOf id = after.usesOf id then none
    else some (node id current (after.usesOf id))

def nodeFacts (node : Node) : Datum :=
  .record
    [("debug", .text node.text), ("int32", .ofOption .int32 node.int32?), ("int64", .ofOption .int64 node.int64?),
     ("number", .ofOption .double node.number?), ("heap", .ofOption .object node.object?),
     ("dead", .bool node.dead), ("input_count", .nat node.inputs.length)]

def edgeKind : EdgeKind → Datum
  | .value => .text "Value"
  | .context => .text "Context"
  | .frameState => .text "FrameState"
  | .effect => .text "Effect"
  | .control => .text "Control"

def refusal (kind message : String) : Datum := .record [("err", .text kind), ("message", .text message)]

def verifyKind : VerifyError → String
  | .startCount _ => "StartCount"
  | .invalidInput .. => "InvalidInput"
  | .deadInput .. => "DeadInput"
  | .inputCount .. => "InputCount"
  | .unterminatedControl .. => "UnterminatedControl"

def scheduleKind : ScheduleError → String
  | .unplaced _ => "Unplaced"
  | .unexpectedControl .. => "UnexpectedControl"
  | .cycle _ => "Cycle"

def compileKind : CompileError → String
  | .verify error => s!"Verify.{verifyKind error}"
  | .schedule error => s!"Schedule.{scheduleKind error}"
  | .listing (.unsupported _) => "Codegen.Unsupported"
  | .listing (.tooLarge ..) => "Codegen.TooLarge"

def configKind : ConfigError → String
  | .inlineArrayTooLarge .. => "InlineArrayTooLarge"
  | .unrollLimitAboveInlineLimit => "UnrollLimitAboveInlineLimit"

def outcome {ε α : Type} (write : α → Datum) (refuse : ε → Datum) :
    Except (Failure ε) α → Except Fault Datum
  | .ok value => .ok (write value)
  | .error (.rejected error) => .ok (refuse error)
  | .error (.fault fault) => .error fault

def verified (graph : Graph) : Except Fault Datum :=
  outcome (fun _ => .text "ok") (fun error => refusal (verifyKind error) error.message) graph.verify

def validated (config : LoweringConfig) : Except Fault Datum :=
  outcome (fun _ => .text "ok") (fun error => refusal (configKind error) error.message) config.validate

def block (graph : Graph) (schedule : Schedule) (id : BlockId) (block : Block) : Datum :=
  .record
    [("id", .nat id), ("start", .nat block.start), ("preds", .ofList .nat block.predecessors),
     ("succs", .ofList .nat block.successors), ("nodes", .ofList .nat block.nodes),
     ("terminator", .ofOption .nat block.terminator), ("rpo", .nat block.label), ("depth", .nat block.depth),
     ("idom", .ofOption .nat block.dominator), ("loop", .bool (block.isLoopHeader graph)),
     ("dominates", .ofList .nat (schedule.order.filter fun other => schedule.dominates id other))]

def schedule (graph : Graph) (schedule : Schedule) : Datum :=
  .record
    [("entry", .nat schedule.entry), ("len", .nat schedule.size), ("empty", .bool schedule.order.isEmpty),
     ("node_count", .nat schedule.nodeCount),
     ("blocks", .ofList (fun (id, entry) => block graph schedule id entry) schedule.ordered),
     ("block_of", .ofList (fun id => .ofOption .nat (schedule.blockOf? id)) graph.nodes.ids)]

def scheduled (graph : Graph) : Except Fault Datum :=
  outcome (schedule graph) (fun error => refusal (scheduleKind error) error.message) (Schedule.ofGraph graph)

def codeFlags (flags : CodeFlags) : Datum :=
  .nat ((if flags.stub then 1 else 0) + (if flags.comments then 2 else 0) + if flags.embedded then 4 else 0)

def readCodeFlags (data : Datum) : Reader CodeFlags := do
  let bits ← data.readNat
  return ⟨bits.testBit 0, bits.testBit 1, bits.testBit 2⟩

def listing (listing : Listing) : Datum :=
  let line (line : Line) : Datum := .text line.text
  let block (block : ListingBlock) : Datum :=
    .list [.nat block.label, .ofList .nat block.predecessors, .bool block.loopHeader,
      .ofList line block.lines]
  .record
    [("name", .text listing.name), ("descriptor", .text listing.descriptor),
     ("flags", codeFlags listing.flags), ("instructions", .nat listing.instructionCount),
     ("blocks", .ofList block listing.blocks), ("text", .text listing.text),
     ("contains_call", .bool (listing.contains "Call"))]

def compiled : Except CompileError Listing → Datum
  | .ok result => listing result
  | .error error => refusal (compileKind error) error.message

def reduction : Reduction → Datum
  | .unchanged => .list [.text "NoChange", .bool false]
  | .changed id => .list [.text "Changed", .bool true, .nat id]
  | .replaced id => .list [.text "Replace", .bool true, .nat id]

def reductionStats (stats : ReductionStats) : Datum :=
  let tally (tally : ReducerTally) : Datum :=
    .list [.text tally.name, .nat tally.changes, .nat tally.replacements]
  .record
    [("visited", .nat stats.visited), ("changed", .nat stats.changed), ("replaced", .nat stats.replaced),
     ("initial_size", .nat stats.initialSize), ("final_size", .nat stats.finalSize),
     ("reductions", .nat stats.reductions), ("nodes_added", .nat stats.nodesAdded),
     ("reducers", .ofList tally stats.reducers)]

def readHook (data : Datum) : Reader Hook := do
  match ← (data.item 0).readText with
  | "nop" => return .nothing
  | "debug_break" => return .debugBreak
  | "comment" => return .comment (← (data.item 1).readText)
  | "unregister" => return .unregister
  | "register" => return .register
  | _ => .malformed

def readAssemblerConfig (data : Datum) : Reader AssemblerConfig := do
  let comments ← (data.field "code_comments").readOption Datum.readBool
  let capacity ← (data.field "initial_node_capacity").readOption Datum.readNat
  return ⟨comments.getD false, capacity.getD 256⟩

end SeaOfNodes.Exchange
