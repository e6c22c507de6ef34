import SeaOfNodes.Schedule.Basic
import SeaOfNodes.Text.Quoted

/-! Code as text: one instruction a line, blocks in reverse postorder. -/

namespace SeaOfNodes

structure CodeFlags where
  stub : Bool := false
  comments : Bool := false
  embedded : Bool := false
deriving DecidableEq, Repr

inductive ListingError where
  | unsupported (op : String)
  | tooLarge (name : String) (limit : Nat)
deriving DecidableEq, Repr

def ListingError.message : ListingError → String
  | .unsupported op => s!"operator {op} is not supported by this code generator"
  | .tooLarge name limit => s!"code object {Text.Quoted.encode name} exceeds {limit} instructions"

inductive Target where
  | block (label : Nat)
  | nowhere
deriving DecidableEq, Repr

def Target.text : Target → String
  | block label => s!"B{label}"
  | nowhere => "B?"

inductive Line where
  | comment (text : String)
  | operation (id : NodeId) (op : Operator) (operands : List NodeId)
  | caught (id : NodeId)
  | ret (operands : List NodeId)
  | throw
  | branch (operands : List NodeId) (yes no : Option Target)
  | switch (operands : List NodeId) (cases : List (Option Int32 × Target))
  | goto (target : Target)
  | proceed (success exception : Target)
deriving DecidableEq, Repr

namespace Line

def valueName (id : NodeId) : String := s!"v{id}"

def operandsText (operands : List NodeId) : String := String.intercalate ", " (operands.map valueName)

def operationText (id : NodeId) (op : Operator) (operands : List NodeId) : String :=
  let result := if 0 < op.outputs.values then s!"{valueName id} = " else ""
  let operands := if operands.isEmpty then "" else s!" {operandsText operands}"
  s!"{result}{op.text}{operands}"

def caseText : Option Int32 × Target → String
  | (some value, target) => s!"{value.toInt} -> {target.text}"
  | (none, target) => s!"default -> {target.text}"

def text : Line → String
  | comment text => s!"; {text}"
  | operation id op operands => operationText id op operands
  | caught id => s!"{valueName id} = IfException"
  | ret operands => s!"return {operandsText operands}"
  | throw => "throw"
  | branch operands yes no =>
    let yes := (yes.map Target.text).getD ""
    let no := (no.map Target.text).getD ""
    s!"branch {operandsText operands} -> {yes}, {no}"
  | switch operands cases =>
    let cases := String.intercalate ", " (cases.map caseText)
    s!"switch {operandsText operands} [{cases}]"
  | goto target => s!"goto {target.text}"
  | proceed success exception => s!"goto {success.text} (exception {exception.text})"

def isInstruction : Line → Bool
  | comment _ => false
  | _ => true

end Line

structure ListingBlock where
  label : Nat
  predecessors : List Nat
  loopHeader : Bool
  lines : List Line
deriving DecidableEq, Repr

namespace ListingBlock

def text (block : ListingBlock) : String :=
  let loop := if block.loopHeader then " loop" else ""
  let labels := String.intercalate ", " (block.predecessors.map fun label => s!"B{label}")
  let predecessors := if block.predecessors.isEmpty then "" else s!" <- {labels}"
  s!"B{block.label}:{loop}{predecessors}\n" ++ String.join (block.lines.map fun line => s!"  {line.text}\n")

end ListingBlock

structure Listing where
  name : String
  descriptor : String
  flags : CodeFlags
  blocks : List ListingBlock
  instructionCount : Nat
deriving DecidableEq, Repr

structure Written where
  lines : List Line := []
  instructions : Nat

def Written.push (flags : CodeFlags) (written : Written) (line : Line) : Written :=
  if line.isInstruction then ⟨written.lines ++ [line], written.instructions + 1⟩
  else if flags.comments then { written with lines := written.lines ++ [line] }
  else written

namespace Listing

def text (listing : Listing) : String :=
  let name := Text.Quoted.encode listing.name
  s!"code {name} ({listing.descriptor}, {listing.instructionCount} instructions)\n" ++
    String.join (listing.blocks.map ListingBlock.text)

def contains (listing : Listing) (text : String) : Bool :=
  listing.blocks.any fun block => block.lines.any fun line => (line.text.splitOn text).length ≠ 1

def defaultLimit : Nat := 65536

def operands (graph : Graph) (id : NodeId) : Except Fault (List NodeId) := do
  let node ← graph.node id
  let layout ← node.op.checkedLayout
  require (layout.firstEffect ≤ node.inputs.length)
  return node.inputs.take layout.firstEffect

def blockTarget (schedule : Schedule) (id : BlockId) : Target :=
  match schedule.block? id with
  | some block => .block block.label
  | none => .nowhere

def target (schedule : Schedule) (id : NodeId) : Target :=
  match schedule.blockOf? id with
  | some block => blockTarget schedule block
  | none => .nowhere

def projection? (graph : Graph) (id : NodeId) (projection : ControlOp) : Option NodeId :=
  (graph.usesOf id).find? fun user => (graph.node? user).any fun node => node.op = .control projection

def caseValue? : Operator → Option (Option Int32)
  | .control (.ifValue value) => some (some value)
  | .control .ifDefault => some none
  | _ => none

def cases (graph : Graph) (id : NodeId) : List (Option Int32 × NodeId) :=
  let projection (user : NodeId) : Option (Option Int32 × NodeId) :=
    ((graph.node? user).bind fun node => caseValue? node.op).map (·, user)
  let before (a b : Option Int32 × NodeId) : Bool :=
    match a.1, b.1 with
    | some a, some b => a ≤ b
    | none, some _ => false
    | _, none => true
  ((graph.usesOf id).filterMap projection).mergeSort before

def callExits? (graph : Graph) (id : NodeId) : Option (NodeId × NodeId) :=
  match (graph.node? id).map Node.op with
  | some (.call _) => do
    let success ← projection? graph id .ifSuccess
    let exception ← projection? graph id .ifException
    return (success, exception)
  | _ => none

def branchLine (graph : Graph) (schedule : Schedule) (id : NodeId) (operands : List NodeId) : Line :=
  let toward (projection : ControlOp) : Option Target := (projection? graph id projection).map (target schedule)
  .branch operands (toward .ifTrue) (toward .ifFalse)

def switchLine (graph : Graph) (schedule : Schedule) (id : NodeId) (operands : List NodeId) : Line :=
  .switch operands ((cases graph id).map fun (value, user) => (value, target schedule user))

def nodeLine (graph : Graph) (schedule : Schedule) (id : NodeId) :
    Except (Failure ListingError) (Option Line) := do
  let op ← (graph.op id).mapError .fault
  let withOperands (line : List NodeId → Line) : Except (Failure ListingError) (Option Line) :=
    ((operands graph id).mapError .fault).map fun operands => some (line operands)
  match op with
  | .create _ => throw (.rejected (.unsupported op.mnemonic))
  | .effectPhi _ | .beginRegion => return none
  | .comment comment => return some (.comment (graph.comment comment))
  | .control control =>
    match control with
    | .ifException => return some (.caught id)
    | .branch => withOperands (branchLine graph schedule id)
    | .switch _ => withOperands (switchLine graph schedule id)
    | .ret _ => withOperands .ret
    | .throw => return some .throw
    | _ => return none
  | _ => withOperands (.operation id op)

def splits : Operator → Bool
  | .control .branch | .control (.switch _) => true
  | _ => false

def endsExplicitly (graph : Graph) (block : Block) : Bool :=
  (block.terminator.bind graph.node?).any fun node => node.op.isTerminator || splits node.op

def fallthrough (graph : Graph) (schedule : Schedule) (block : Block) : List Line :=
  match block.terminator.bind (callExits? graph), block.successors with
  | some (success, exception), _ => [.proceed (target schedule success) (target schedule exception)]
  | none, [successor] => [.goto (blockTarget schedule successor)]
  | none, _ => []

def ofBlock (graph : Graph) (schedule : Schedule) (flags : CodeFlags) (block : Block) (count : Nat) :
    Except (Failure ListingError) (ListingBlock × Nat) := do
  let lines ← block.nodes.mapM (nodeLine graph schedule)
  let leaving := if endsExplicitly graph block then [] else fallthrough graph schedule block
  let written := (lines.reduceOption ++ leaving).foldl (Written.push flags) { instructions := count }
  let predecessors := block.predecessors.filterMap fun id => (schedule.block? id).map Block.label
  return ({ label := block.label
            predecessors := predecessors.mergeSort
            loopHeader := block.isLoopHeader graph
            lines := written.lines }, written.instructions)

def ofBlocks (graph : Graph) (schedule : Schedule) (flags : CodeFlags) (name : String) (limit : Nat) :
    List Block → Nat → Except (Failure ListingError) (List ListingBlock × Nat)
  | [], count => .ok ([], count)
  | block :: rest, count => do
    let (first, count) ← ofBlock graph schedule flags block count
    if limit < count then throw (.rejected (.tooLarge name limit))
    let (further, total) ← ofBlocks graph schedule flags name limit rest count
    return (first :: further, total)

def ofSchedule (graph : Graph) (schedule : Schedule) (descriptor : CallDescriptor) (name : String)
    (flags : CodeFlags) (limit : Nat) : Except (Failure ListingError) Listing := do
  let (blocks, count) ← ofBlocks graph schedule flags name limit (schedule.ordered.map (·.2)) 0
  return ⟨name, descriptor.text, flags, blocks, count⟩

end Listing

end SeaOfNodes
