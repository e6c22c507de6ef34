import SeaOfNodes.Proofs.Graph.Uses

/-! Every graph that edits can make keeps its use lists in step. -/

namespace SeaOfNodes

open List

namespace Graph

variable (graph : Graph)

theorem read_node {id : NodeId} (good : Node → Prop) (holds : ∀ node, graph.node? id = some node → good node) :
    Yields (graph.node id) good :=
  yields_present holds

theorem insert_input_yields (id : NodeId) (index : Nat) (input : NodeId) (node : Node) (read : graph.node? id = some node) :
    Yields (graph.insertInput id index input) fun new =>
      Edited graph new id { node with inputs := node.inputs.insertIdx index input } := by
  rw [insertInput, (graph.node_eq_ok id node).mpr read]
  refine yields_bind (fun found => node = found) rfl ?_
  rintro _ rfl
  refine yields_bind (fun _ => index ≤ node.inputs.length) (yields_require fun inside => by simpa using inside) ?_
  intro _ inside
  refine yields_pure (edited_of_balance (fun node => { node with inputs := node.inputs.insertIdx index input }) [] [input] read rfl rfl
    (by simp) fun definition => ?_)
  rw [count_nil, zero_add, (perm_insertIdx input node.inputs inside).count_eq]
  rw [count_cons, count_singleton, add_comm]

theorem remove_input_yields (id : NodeId) (index : Nat) (node : Node) (read : graph.node? id = some node) :
    Yields (graph.removeInput id index) fun new => Edited graph new id { node with inputs := node.inputs.eraseIdx index } := by
  rw [removeInput, Graph.input, (graph.node_eq_ok id node).mpr read]
  refine yields_bind (fun old => node.inputs[index]? = some old) (yields_present fun _ found => found) ?_
  intro old found
  obtain ⟨inside, here⟩ := List.getElem?_eq_some_iff.mp found
  refine yields_pure (dropped_edited (fun node => { node with inputs := node.inputs.eraseIdx index }) [old] read rfl rfl ?_)
  exact here ▸ getElem_cons_eraseIdx_perm inside

variable (mirrored : graph.Mirrored)

include mirrored

theorem redirect_edge_mirrored (value : NodeId) (effect control : Option NodeId) (edge : NodeId × Nat) :
    Yields (redirectEdge value effect control graph edge) Mirrored := by
  obtain ⟨user, index⟩ := edge
  rw [redirectEdge]
  refine yields_bind _ (graph.read_node (fun node => graph.node? user = some node) fun _ => id) ?_
  intro node read
  have moved : ∀ target, Yields (graph.replaceInput user index target) Mirrored := fun target =>
    yields_mono (graph.replace_input_yields user index target node read) fun new edited => edited.mirrored mirrored
  have bypassed : ∀ target, Yields ((graph.replaceAllUses user target).kill user) Mirrored := by
    intro target
    have there := graph.replace_all_uses_node mirrored user target user
    rw [read, Option.map_some] at there
    exact yields_mono ((graph.replaceAllUses user target).kill_yields user _ there) fun new edited =>
      edited.mirrored (graph.replace_all_uses_mirrored mirrored user target)
  refine yields_ite (fun _ => yields_pure mirrored) fun _ => ?_
  have kind : Yields (graph.edgeKind user index) fun _ => True := by
    rw [edgeKind, Graph.layout, (graph.op_eq_ok user node.op).mpr ⟨node, read, rfl⟩]
    exact yields_bind (fun _ => True) (yields_checked_layout fun _ => trivial) fun _ _ => yields_pure trivial
  refine yields_bind _ kind fun kind _ => ?_
  split
  · exact yields_ite (fun _ => bypassed _) fun _ => moved _
  · exact moved _
  · exact yields_pure mirrored
  · exact yields_pure mirrored
  · exact moved _

theorem replace_with_value_mirrored (id value : NodeId) (effect control : Option NodeId) :
    Yields (graph.replaceWithValue id value effect control) Mirrored := by
  have fold : ∀ effect control, Yields ((graph.useEdges id).foldlM (redirectEdge value effect control) graph) Mirrored := by
    intro effect control
    refine yields_fold (fun _ => Mirrored) mirrored ?_
    intro _ edge new _ reached
    exact new.redirect_edge_mirrored reached value effect control edge
  have op : Yields (graph.op id) fun _ => True := yields_map (graph.read_node _ fun _ _ => trivial)
  have layout : Yields (graph.layout id) fun _ => True :=
    yields_bind _ op fun op _ => yields_checked_layout fun _ => trivial
  have input : ∀ index, Yields (graph.input id index) fun _ => True := fun index =>
    yields_bind (fun _ => True) (graph.read_node _ fun _ _ => trivial) fun _ _ => yields_present fun _ _ => trivial
  have ownEffect : Yields (graph.effectInput id) fun _ => True :=
    yields_bind _ layout fun layout _ =>
      yields_bind (fun _ => True) (yields_require fun _ => trivial) fun _ _ => input _
  have ownControl : Yields (graph.controlInput id) fun _ => True :=
    yields_bind _ layout fun layout _ =>
      yields_bind (fun _ => True) (yields_require fun _ => trivial) fun _ _ => input _
  rw [replaceWithValue]
  refine yields_bind _ layout fun layout _ => ?_
  extract_lets withEffect
  have rest : ∀ effect, Yields (withEffect effect) Mirrored := by
    intro effect
    dsimp only [withEffect]
    cases control with
    | some control => exact fold effect (some control)
    | none =>
      refine yields_ite (fun _ => ?_) fun _ => fold effect none
      exact yields_bind (fun _ => True) (yields_map (yields_mono ownControl fun _ _ => trivial)) fun found _ =>
        fold effect found
  cases effect with
  | some effect => exact rest (some effect)
  | none =>
    refine yields_ite (fun _ => ?_) fun _ => rest none
    exact yields_bind (fun _ => True) (yields_map (yields_mono ownEffect fun _ _ => trivial)) fun found _ =>
      rest found

theorem constant_mirrored (value : Constant) : (graph.constant value).2.Mirrored := by
  rw [constant]
  split
  · exact mirrored
  · exact graph.push_mirrored _ mirrored

theorem modify_mirrored (id : NodeId) {change : Node → Node} (kept : ∀ node, (change node).inputs = node.inputs) :
    (graph.modifyNode id change).Mirrored := by
  cases read : graph.node? id with
  | some node => exact (graph.modify_edited read (kept node)).mirrored mirrored
  | none =>
    intro definition user
    have same : (graph.modifyNode id change).inputsOf user = graph.inputsOf user := by
      refine inputs_of_congr _ ?_
      rw [node_modify]
      split
      · rename_i here
        rw [here, read]
        rfl
      · rfl
    rw [same]
    exact mirrored definition user

theorem merge_to_end_mirrored (terminator : NodeId) : Yields (graph.mergeToEnd terminator) Mirrored := by
  have appended : Yields (graph.appendInput stop terminator) Mirrored := by
    cases read : graph.node? stop with
    | some node => exact yields_mono (graph.append_input_yields stop terminator node read) fun new edited => edited.mirrored mirrored
    | none =>
      rw [appendInput]
      refine yields_bind (fun node => graph.node? stop = some node) (graph.read_node _ fun _ => id) ?_
      intro node found
      rw [read] at found
      cases found
  refine yields_bind _ appended fun new reached => yields_pure (new.modify_mirrored reached stop fun _ => rfl)

end Graph

-- An edit of one node needs the node to be there, or else is refused.
theorem edit_mirrored {graph : Graph} (mirrored : graph.Mirrored) (id : NodeId) (outcome : Except Fault Graph)
    (next : Node → Node) (spec : ∀ node, graph.node? id = some node → Yields outcome fun new => graph.Edited new id (next node))
    (refused : graph.node id = .error .assertion → outcome = .error .assertion) : Yields outcome Graph.Mirrored := by
  cases read : graph.node? id with
  | some node => exact yields_mono (spec node read) fun new edited => edited.mirrored mirrored
  | none =>
    have missing : graph.node id = .error .assertion := by
      rw [Graph.node, Pool.get, show graph.nodes.get? id = none from read]
      rfl
    rw [refused missing]
    exact .inr rfl

theorem apply_mirrored {graph : Graph} (mirrored : graph.Mirrored) (edit : Edit) :
    Yields (edit.apply graph) fun made => made.2.Mirrored := by
  have single := edit_mirrored mirrored
  have added : ∀ op inputs, Yields (graph.addNode op inputs) fun made => made.2.Mirrored := by
    intro op inputs
    refine yields_bind (fun _ => True) (yields_checked_layout fun _ => trivial) fun layout _ => ?_
    refine yields_bind (fun _ => True) (yields_require fun _ => trivial) fun _ _ => ?_
    exact graph.push_mirrored _ mirrored
  cases edit with
  | addNode op inputs type =>
    cases type with
    | none => exact yields_bind _ (added op inputs) fun made fine => yields_pure fine
    | some type =>
      refine yields_bind (fun made => made.2.Mirrored) ?_ fun made fine => yields_pure fine
      refine yields_bind _ (added op inputs) fun made fine => yields_pure ?_
      exact made.2.modify_mirrored fine made.1 fun _ => rfl
  | constant op =>
    cases op with
    | constant value => exact graph.constant_mirrored mirrored value
    | _ => exact .inr rfl
  | int32Constant value | numberConstant value => exact Graph.modify_mirrored _ (graph.constant_mirrored mirrored _) _ fun _ => rfl
  | setType id type =>
    refine yields_map (single id _ _ (graph.set_type_yields id type) fun missing => ?_)
    rw [Graph.setType, missing]
    rfl
  | changeOp id op =>
    refine yields_map (single id _ _ (graph.change_op_yields id op) fun missing => ?_)
    rw [Graph.changeOp, missing]
    rfl
  | replaceInput id index input =>
    refine yields_map (single id _ _ (graph.replace_input_yields id index input) fun missing => ?_)
    rw [Graph.replaceInput, Graph.input, missing]
    rfl
  | insertInput id index input =>
    refine yields_map (single id _ _ (graph.insert_input_yields id index input) fun missing => ?_)
    rw [Graph.insertInput, missing]
    rfl
  | removeInput id index =>
    refine yields_map (single id _ _ (graph.remove_input_yields id index) fun missing => ?_)
    rw [Graph.removeInput, Graph.input, missing]
    rfl
  | appendInput id input =>
    refine yields_map (single id _ _ (graph.append_input_yields id input) fun missing => ?_)
    rw [Graph.appendInput, missing]
    rfl
  | trimInputs id count =>
    refine yields_map (single id _ _ (graph.trim_inputs_yields id count) fun missing => ?_)
    rw [Graph.trimInputs, missing]
    rfl
  | replaceAllUses old new => exact graph.replace_all_uses_mirrored mirrored old new
  | replaceWithValue id value effect control =>
    exact yields_map (graph.replace_with_value_mirrored mirrored id value effect control)
  | relaxControls id => exact yields_map (graph.replace_with_value_mirrored mirrored id id (some id) none)
  | kill id =>
    refine yields_map (single id _ _ (graph.kill_yields id) fun missing => ?_)
    rw [Graph.kill, missing]
    rfl
  | mergeToEnd terminator => exact yields_map (graph.merge_to_end_mirrored mirrored terminator)

def Graph.built (edits : List Edit) : Graph :=
  match edits.foldlM (fun graph edit => Prod.snd <$> edit.apply graph) Graph.empty with
  | .ok graph => graph
  | .error _ => .empty

theorem built_mirrored (edits : List Edit) : (Graph.built edits).Mirrored := by
  have all : Yields (edits.foldlM (fun graph edit => Prod.snd <$> edit.apply graph) Graph.empty) Graph.Mirrored := by
    refine yields_fold (fun _ => Graph.Mirrored) Graph.empty_mirrored ?_
    intro _ edit graph _ mirrored
    exact yields_map (apply_mirrored mirrored edit)
  rw [Graph.built]
  split
  · rename_i graph made
    exact yields_ok _ graph all made
  · exact Graph.empty_mirrored

end SeaOfNodes
