import SeaOfNodes.Proofs.Graph.Nodes
import SeaOfNodes.Proofs.Yields

/-! Reading the inputs of a node. -/

namespace SeaOfNodes

variable {index : Nat}

section

variable {graph : Graph} (id : NodeId)

theorem op_panics : Yields (graph.op id) fun _ => True :=
  yields_map (yields_present fun _ _ => trivial)

theorem layout_panics : Yields (graph.layout id) fun _ => True :=
  yields_bind _ (op_panics id) fun op _ => yields_checked_layout fun _ => trivial

theorem input_panics (index : Nat) : Yields (graph.input id index) fun _ => True :=
  yields_bind (fun _ => True) (yields_present fun _ _ => trivial) fun _ _ => yields_present fun _ _ => trivial

theorem required_input_panics {condition : Bool} : Yields (do require condition; graph.input id index) fun _ => True :=
  yields_bind (fun _ => True) (yields_require fun _ => trivial) fun _ _ => input_panics id index

theorem value_input_panics (index : Nat) : Yields (graph.valueInput id index) fun _ => True :=
  yields_bind _ (layout_panics id) fun _ _ => required_input_panics id

theorem effect_input_panics : Yields (graph.effectInput id) fun _ => True :=
  yields_bind _ (layout_panics id) fun _ _ => required_input_panics id

theorem control_input_panics : Yields (graph.controlInput id) fun _ => True :=
  yields_bind _ (layout_panics id) fun _ _ => required_input_panics id

theorem yields_effect_control {α : Type} {next : NodeId → NodeId → Except Fault α} {good : α → Prop}
    (goes : ∀ effect control, graph.effectInput id = .ok effect → graph.controlInput id = .ok control →
      Yields (next effect control) good) :
    Yields (graph.effectInput id >>= fun effect => graph.controlInput id >>= next effect) good :=
  yields_then (effect_input_panics id) fun effect found =>
    yields_then (control_input_panics id) fun control led => goes effect control found led

theorem value_inputs_panics : Yields (graph.valueInputs id) fun _ => True :=
  yields_bind _ (layout_panics id) fun _ _ =>
    yields_bind (fun _ => True) (yields_present fun _ _ => trivial) fun _ _ => yields_pure trivial

theorem optional_input_panics (condition : Prop) [Decidable condition] (index : Nat) :
    Yields (if condition then some <$> graph.input id index else return none) fun _ => True :=
  yields_ite (fun _ => yields_map (input_panics id index)) fun _ => yields_pure trivial

theorem context_input_panics : Yields (graph.contextInput? id) fun _ => True :=
  yields_bind _ (layout_panics id) fun _ _ => optional_input_panics id _ _

theorem frame_state_input_panics : Yields (graph.frameStateInput? id) fun _ => True :=
  yields_bind _ (layout_panics id) fun _ _ => optional_input_panics id _ _

end

namespace Graph

variable {inputs : List NodeId} {graph : Graph} {id input : NodeId}

theorem input_mem (read : graph.input id index = .ok input) : input ∈ graph.inputsOf id := by
  obtain ⟨node, found, place⟩ := (graph.input_eq_ok id index input).mp read
  rw [graph.inputs_of_eq id node found]
  exact List.mem_of_getElem? place

theorem value_input_mem (read : graph.valueInput id index = .ok input) : input ∈ graph.inputsOf id := by
  simp only [valueInput, bind_eq_ok] at read
  obtain ⟨_, _, _, _, read⟩ := read
  exact input_mem read

theorem effect_input_mem (read : graph.effectInput id = .ok input) : input ∈ graph.inputsOf id := by
  simp only [effectInput, bind_eq_ok] at read
  obtain ⟨_, _, _, _, read⟩ := read
  exact input_mem read

theorem value_inputs_eq {node : Node} (found : graph.node? id = some node) (read : graph.valueInputs id = .ok inputs) :
    inputs = node.inputs.take node.op.layout.values := by
  simp only [valueInputs, bind_eq_ok, layout_eq_ok, node_eq_ok, pure_eq_ok] at read
  obtain ⟨_, ⟨_, same, _, rfl⟩, _, again, rfl⟩ := read
  cases found.symm.trans same
  cases found.symm.trans again
  rfl

theorem value_inputs_mem (read : graph.valueInputs id = .ok inputs) : ∀ input ∈ inputs, input ∈ graph.inputsOf id := by
  have laid := read
  simp only [valueInputs, bind_eq_ok, node_eq_ok] at laid
  obtain ⟨_, _, node, found, _⟩ := laid
  intro input member
  rw [value_inputs_eq found read] at member
  rw [graph.inputs_of_eq id node found]
  exact List.mem_of_mem_take member

theorem optional_input_mem (condition : Prop) [Decidable condition] (read : (if condition then some <$> graph.input id index else
      return none) = (.ok (some input) : Except Fault (Option NodeId))) : input ∈ graph.inputsOf id := by
  split at read
  · cases found : graph.input id index with
    | error fault =>
      rw [found] at read
      cases read
    | ok other =>
      rw [found] at read
      cases read
      exact input_mem found
  · cases read

theorem context_input_mem (read : graph.contextInput? id = .ok (some input)) : input ∈ graph.inputsOf id := by
  obtain ⟨_, _, read⟩ := bind_eq_ok.mp read
  exact optional_input_mem _ read

theorem frame_state_input_mem (read : graph.frameStateInput? id = .ok (some input)) : input ∈ graph.inputsOf id := by
  obtain ⟨_, _, read⟩ := bind_eq_ok.mp read
  exact optional_input_mem _ read

end Graph

end SeaOfNodes
