import SeaOfNodes.Graph.Verify
import SeaOfNodes.Proofs.Outcome

namespace SeaOfNodes

open List

theorem mem_of_lookup {κ α : Type} [BEq κ] [LawfulBEq κ] {entries : List (κ × α)} (key : κ) (value : α)
    (found : entries.lookup key = some value) : (key, value) ∈ entries := by
  obtain ⟨front, back, rfl, _⟩ := lookup_eq_some_iff.mp found
  simp

theorem require_eq_ok {condition : Bool} (result : Unit) : require condition = .ok result ↔ condition := by
  cases condition <;> simp [require]

theorem checked_layout_eq_ok (op : Operator) (layout : InputLayout) :
    op.checkedLayout = .ok layout ↔ op.fits ∧ layout = op.layout := by
  cases fits : op.fits
  · simp [Operator.checkedLayout, fits]
  · simp [Operator.checkedLayout, fits, eq_comm]

namespace Pool

variable {α : Type} (pool : Pool α)

theorem mem_entries (id : Nat) (item : α) : (id, item) ∈ pool.entries ↔ pool.get? id = some item := by
  rw [entries, ids, toList, get?, mem_iff_getElem?]
  constructor
  · rintro ⟨index, read⟩
    obtain ⟨first, second⟩ := getElem?_zip_eq_some.mp read
    rw [getElem?_range (by simpa using (List.getElem?_eq_some_iff.mp first).1)] at first
    cases first
    simpa using second
  · intro read
    have inside := (Array.getElem?_eq_some_iff.mp read).1
    refine ⟨id, getElem?_zip_eq_some.mpr ⟨?_, ?_⟩⟩
    · rw [getElem?_range inside]
    · simpa using read

theorem get_modify (id other : Nat) (change : α → α) :
    (pool.modify id change).get? other = if other = id then (pool.get? id).map change else pool.get? other := by
  by_cases same : other = id
  · rw [if_pos same, same]
    exact pool.get?_modify_same id change
  · rw [if_neg same]
    exact pool.get?_modify_other id other change same

theorem get_alloc (item : α) (id : Nat) :
    (pool.alloc item).2.get? id = if id = pool.size then some item else pool.get? id := by
  simp only [alloc, get?, size, Array.getElem?_push]
  rfl

end Pool

namespace Graph

variable {id : NodeId} (graph : Graph)

theorem node_lt {id : NodeId} {node : Node} (read : graph.node? id = some node) : id < graph.size :=
  (Array.getElem?_eq_some_iff.mp read).1

theorem node_of_lt (id : NodeId) (inside : id < graph.size) : ∃ node, graph.node? id = some node :=
  ⟨_, Array.getElem?_eq_getElem inside⟩

theorem node_eq_ok (id : NodeId) (node : Node) : graph.node id = .ok node ↔ graph.node? id = some node :=
  present_eq_ok

theorem op_eq_ok (id : NodeId) (op : Operator) : graph.op id = .ok op ↔ ∃ node, graph.node? id = some node ∧ node.op = op := by
  rw [Graph.op]
  cases read : graph.node? id with
  | none => simp [Graph.node, Pool.get, present, show graph.nodes.get? id = none from read, Functor.map, Except.map]
  | some node => simp [Graph.node, Pool.get, present, show graph.nodes.get? id = some node from read, Functor.map, Except.map]

theorem inputs_of_eq (id : NodeId) (node : Node) (read : graph.node? id = some node) : graph.inputsOf id = node.inputs := by
  rw [inputsOf, read]
  rfl

@[simp] theorem node_add_use (definition user id : NodeId) : (graph.addUse definition user).node? id = graph.node? id := rfl

@[simp] theorem size_add_use (definition user : NodeId) : (graph.addUse definition user).size = graph.size := rfl

theorem node_modify (id other : NodeId) (change : Node → Node) : (graph.modifyNode id change).node? other =
      if other = id then (graph.node? id).map change else graph.node? other :=
  graph.nodes.get_modify id other change

@[simp] theorem size_modify (id : NodeId) (change : Node → Node) : (graph.modifyNode id change).size = graph.size :=
  Array.size_modify

theorem nodes_fold_add_use (inputs : List NodeId) :
    (inputs.foldl (fun graph input => graph.addUse input id) graph).nodes = graph.nodes := by
  induction inputs generalizing graph with
  | nil => rfl
  | cons input rest ih => exact ih (graph.addUse input id)

theorem push_id (node : Node) : (graph.push node).1 = graph.size := rfl

theorem node_push (node : Node) (id : NodeId) :
    (graph.push node).2.node? id = if id = graph.size then some node else graph.node? id := by
  have stored : (graph.push node).2.nodes = ⟨graph.nodes.items.push node⟩ := nodes_fold_add_use _ node.inputs
  simp only [node?, stored, Pool.get?, Array.getElem?_push]
  rfl

theorem size_push (node : Node) : (graph.push node).2.size = graph.size + 1 := by
  have stored : (graph.push node).2.nodes = ⟨graph.nodes.items.push node⟩ := nodes_fold_add_use _ node.inputs
  simp [size, stored, Pool.size]

theorem constants_push (node : Node) : (graph.push node).2.constants = graph.constants := by
  have fold : ∀ (inputs : List NodeId) (id : NodeId) (start : Graph),
      (inputs.foldl (fun graph input => graph.addUse input id) start).constants = start.constants := by
    intro inputs id
    induction inputs with
    | nil => exact fun _ => rfl
    | cons input rest ih => exact fun start => ih (start.addUse input id)
  exact fold node.inputs graph.size { graph with nodes := (graph.nodes.alloc node).2 }

theorem add_node_eq_ok {op : Operator} {inputs : List NodeId} {next : Graph} : graph.addNode op inputs = .ok (id, next) ↔
      op.fits ∧ inputs.length = op.layout.total ∧ graph.push { op := op, inputs := inputs } = (id, next) := by
  simp only [addNode, bind_eq_ok, pure_eq_ok, checked_layout_eq_ok, require_eq_ok, beq_iff_eq]
  constructor
  · rintro ⟨layout, ⟨fits, same⟩, _, counted, made⟩
    exact ⟨fits, same ▸ counted, made⟩
  · rintro ⟨fits, counted, made⟩
    exact ⟨op.layout, ⟨fits, rfl⟩, (), counted, made⟩

theorem layout_eq_ok (id : NodeId) (layout : InputLayout) :
    graph.layout id = .ok layout ↔ ∃ node, graph.node? id = some node ∧ node.op.fits ∧ layout = node.op.layout := by
  simp only [Graph.layout, bind_eq_ok, op_eq_ok, checked_layout_eq_ok]
  constructor
  · rintro ⟨op, ⟨node, read, rfl⟩, fits, same⟩
    exact ⟨node, read, fits, same⟩
  · rintro ⟨node, read, fits, same⟩
    exact ⟨node.op, ⟨node, read, rfl⟩, fits, same⟩

theorem input_eq_ok (id : NodeId) (index : Nat) (input : NodeId) :
    graph.input id index = .ok input ↔ ∃ node, graph.node? id = some node ∧ node.inputs[index]? = some input := by
  simp only [Graph.input, bind_eq_ok, node_eq_ok, present_eq_ok]

end Graph

end SeaOfNodes
