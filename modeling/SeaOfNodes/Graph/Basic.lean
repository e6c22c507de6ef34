import SeaOfNodes.Journal
import SeaOfNodes.Value.ValueType

/-! A graph of nodes in one flat store. -/

namespace SeaOfNodes

structure Node where
  op : Operator
  inputs : List NodeId
  type : ValueType := .any
  dead : Bool := false
  breakpoint : Bool := false
deriving DecidableEq, Repr

namespace Node

def int32? (node : Node) : Option Int32 :=
  match node.op with
  | .constant (.int32 value) => some value
  | _ => none

def int64? (node : Node) : Option Int64 :=
  match node.op with
  | .constant (.int32 value) => some value.toInt64
  | .constant (.int64 value) => some value
  | _ => none

def number? (node : Node) : Option Double :=
  match node.op with
  | .constant (.number value) | .constant (.float64 value) => some value
  | _ => none

def object? (node : Node) : Option ObjectRef :=
  match node.op with
  | .constant (.heap object) => some object
  | _ => node.type.object

def text (node : Node) : String :=
  let inputs := String.intercalate ", " (node.inputs.map Handle.text)
  String.join
    [node.op.text,
     if node.inputs.isEmpty then "" else s!" [{inputs}]",
     if node.type.same .any then "" else s!" : {node.type.text}",
     if node.dead then " (dead)" else ""]

end Node

structure Graph where
  nodes : Pool Node
  uses : SideTable (List NodeId)
  constants : List (Constant × NodeId)
  comments : Array String
deriving Repr

namespace Graph

def start : NodeId := 0

def stop : NodeId := 1

def empty : Graph :=
  { nodes := ⟨#[{ op := .control .start, inputs := [] }, { op := .control (.stop 0), inputs := [] }]⟩
    uses := .empty
    constants := []
    comments := #[] }

-- Storage of one node.
def nodeBytes : Nat := 112

def withCapacity (count : Nat) : Except Fault Graph := do
  roomFor count nodeBytes
  return empty

def size (graph : Graph) : Nat := graph.nodes.size

def isEmpty (graph : Graph) : Bool := graph.size ≤ 2

def node? (graph : Graph) (id : NodeId) : Option Node := graph.nodes.get? id

def node (graph : Graph) (id : NodeId) : Except Fault Node := graph.nodes.get id

def op (graph : Graph) (id : NodeId) : Except Fault Operator := Node.op <$> graph.node id

def isLive (graph : Graph) (id : NodeId) : Bool := (graph.node? id).any fun node => !node.dead

def liveIds (graph : Graph) : List NodeId := graph.nodes.ids.filter graph.isLive

def usesOf (graph : Graph) (id : NodeId) : List NodeId := graph.uses.read id

def inputsOf (graph : Graph) (id : NodeId) : List NodeId := ((graph.node? id).map Node.inputs).getD []

def insertUnique (id : NodeId) : List NodeId → List NodeId
  | [] => [id]
  | first :: rest =>
    if id < first then id :: first :: rest
    else if id = first then first :: rest
    else first :: insertUnique id rest

def users (graph : Graph) (id : NodeId) : List NodeId := (graph.usesOf id).foldr insertUnique []

def useEdges (graph : Graph) (id : NodeId) : List (NodeId × Nat) :=
  (graph.users id).flatMap fun user =>
    (graph.inputsOf user).zipIdx.filterMap fun (input, index) => if input = id then some (user, index) else none

def comment (graph : Graph) (id : UInt32) : String := graph.comments.getD id.toNat ""

def addComment (graph : Graph) (text : String) : UInt32 × Graph :=
  (UInt32.ofNat graph.comments.size, { graph with comments := graph.comments.push text })

def sameNode (graph : Graph) (a b : NodeId) : Except Fault Bool := do
  let first ← graph.node a
  let second ← graph.node b
  return first.op = second.op && first.inputs = second.inputs && first.type.same second.type &&
    first.dead == second.dead

def text (graph : Graph) : String :=
  let line (entry : Nat × Node) : String := s!"  {Handle.text entry.1}: {entry.2.text}\n"
  s!"Graph ({graph.size} nodes):\n" ++ String.join (graph.nodes.entries.map line)

end Graph

end SeaOfNodes
