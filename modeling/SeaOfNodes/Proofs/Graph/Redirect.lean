import SeaOfNodes.Proofs.Graph.Relocated

/-! What the redirection of all uses of a node does to the live nodes of a graph. -/

namespace SeaOfNodes

def EdgeKind.target (value effect control : NodeId) : EdgeKind → NodeId
  | .control => control
  | .effect => effect
  | _ => value

namespace Graph

variable {node : Node}

theorem edge_kind_yields (graph : Graph) {user : NodeId} (index : Nat) (read : graph.node? user = some node) :
    Yields (graph.edgeKind user index) fun kind => kind = node.op.layout.edgeKind index := by
  have op : graph.op user = .ok node.op := (graph.op_eq_ok user node.op).mpr ⟨node, read, rfl⟩
  rw [edgeKind, Graph.layout, op]
  exact yields_bind (fun layout => layout = node.op.layout) (yields_checked_layout fun _ => rfl)
    (by rintro _ rfl; exact yields_pure rfl)

section

variable (old : Graph) (id value effect control : NodeId)

def diverted (node : Node) (index : Nat) (input : NodeId) : NodeId :=
  if old.bypasses id input = true then control
  else if input = id ∧ node.dead = false then (node.op.layout.edgeKind index).target value effect control
  else input

def rerouted (op : Operator) (index : Nat) (input : NodeId) : NodeId :=
  if old.bypasses id input = true then control
  else if input = id then (op.layout.edgeKind index).target value effect control
  else input

structure Diverted (new : Graph) : Prop where
  size : new.size = old.size
  mirrored : new.Mirrored
  kept : ∀ user node, old.node? user = some node → old.bypasses id user = false →
    ∃ next, new.node? user = some next ∧ next.op = node.op ∧ next.dead = node.dead ∧
      next.inputs = node.inputs.mapIdx (old.diverted id value effect control node)
  gone : ∀ user, old.bypasses id user = true → ∃ next, new.node? user = some next ∧ next.dead = true

structure Redirected (new : Graph) : Prop where
  size : new.size = old.size
  mirrored : new.Mirrored
  kept : ∀ user node, old.Live user node → old.bypasses id user = false → ∃ next, new.Live user next ∧ next.op = node.op ∧
      next.inputs = node.inputs.mapIdx (old.rerouted id value effect control node.op)
  only : ∀ user next, new.Live user next → (∃ node, old.Live user node) ∧ old.bypasses id user = false

-- What the redirection needs: use lists that are in step, success projections with one input, and targets that it does not bypass
-- itself.
structure Redirectable : Prop where
  mirrored : old.Mirrored
  single : ∀ user node, old.Live user node → node.op = .control .ifSuccess → node.inputs.length = 1
  self : old.bypasses id id = false
  value : old.bypasses id value = false
  effect : old.bypasses id effect = false
  control : old.bypasses id control = false

variable {old id value effect control}

-- The node is no projection of itself, so it does not matter which of the two moves comes first.
theorem diverted_of_replaced (self : old.bypasses id id = false) {new : Graph}
    (reached : Replaced old id value (some effect) (some control) new) : Diverted old id value effect control new := by
  have target : ∀ (kind : EdgeKind) (onward : NodeId),
      (kind.target? value (some effect) (some control)).getD onward = kind.target value effect control := by
    intro kind onward
    cases kind with
    | control | effect | value | context | frameState => rfl
  refine ⟨reached.size, reached.mirrored, ?_, ?_⟩
  · intro user node read stays
    have undropped : ¬ old.drops id (some control) user := by
      intro drops
      rw [drops.2] at stays
      cases stays
    refine ⟨_, reached.kept user node read undropped, rfl, rfl, ?_⟩
    dsimp only
    congr 1
    funext index input
    rw [replaced, diverted, target, Option.getD_some]
    by_cases bypassed : old.bypasses id input
    · have other : ¬ (input = id ∧ node.dead = false) := by
        rintro ⟨rfl, _⟩
        rw [self] at bypassed
        cases bypassed
      rw [if_neg other, if_pos bypassed, if_pos bypassed]
    · rw [if_neg bypassed, if_neg bypassed]
  · intro user bypassed
    obtain ⟨node, live, _⟩ := (bypasses_iff old id user).mp bypassed
    exact ⟨_, reached.dropped user node live.1 ⟨rfl, bypassed⟩, rfl⟩

theorem divert_all_yields (mirrored : old.Mirrored) (self : old.bypasses id id = false) (valueStays : old.bypasses id value = false)
    (effectStays : old.bypasses id effect = false) :
    Yields ((old.useEdges id).foldlM (redirectEdge value (some effect) (some control)) old)
      (Diverted old id value effect control) := by
  have targetStays : ∀ target, some effect = some target → old.bypasses id target = false := by
    rintro _ ⟨⟩
    exact effectStays
  rcases @redirect_all_replaces old id value (some effect) (some control) mirrored valueStays targetStays with ⟨new, run, _, reached⟩ | ⟨run, _⟩
  · rw [run]
    exact diverted_of_replaced self reached
  · rw [run]
    exact .inl rfl

theorem redirected_of_diverted (new : Graph) (reached : Diverted old id value effect control new) :
    Redirected old id value effect control new := by
  refine ⟨reached.size, reached.mirrored, ?_, ?_⟩
  · intro user node live stays
    obtain ⟨next, after, op, dead, inputs⟩ := reached.kept user node live.1 stays
    refine ⟨next, ⟨after, dead.trans live.2⟩, op, inputs.trans ?_⟩
    congr 1
    funext index input
    simp [diverted, rerouted, live.2]
  · intro user next live
    obtain ⟨node, read⟩ := old.node_of_lt user (reached.size ▸ node_lt new live.1)
    have stays : old.bypasses id user = false := by
      rw [Bool.eq_false_iff]
      intro bypassed
      obtain ⟨after, found, dead⟩ := reached.gone user bypassed
      cases found.symm.trans live.1
      rw [live.2] at dead
      cases dead
    obtain ⟨after, found, _, dead, _⟩ := reached.kept user node read stays
    cases found.symm.trans live.1
    exact ⟨⟨node, read, dead.symm.trans live.2⟩, stays⟩

theorem redirect_all_yields (able : Redirectable old id value effect control) :
    Yields ((old.useEdges id).foldlM (redirectEdge value (some effect) (some control)) old)
      (Redirected old id value effect control) :=
  yields_mono (divert_all_yields able.mirrored able.self able.value able.effect) redirected_of_diverted

theorem layout_yields {graph : Graph} {id : NodeId} (read : graph.node? id = some node) {good : InputLayout → Prop}
    (holds : good node.op.layout) : Yields (graph.layout id) good := by
  rw [Graph.layout, (graph.op_eq_ok id node.op).mpr ⟨node, read, rfl⟩]
  exact yields_checked_layout fun _ => holds

theorem replace_with_value_yields (able : Redirectable old id value effect control) (read : old.node? id = some node) :
    Yields (old.replaceWithValue id value (some effect) (some control)) (Redirected old id value effect control) := by
  rw [replaceWithValue]
  refine yields_bind (fun _ => True) (layout_yields read trivial) fun layout _ => ?_
  exact redirect_all_yields able

theorem relax_controls_yields (able : Redirectable old id id id control) (read : old.node? id = some node)
    (controls : 0 < node.op.layout.controls) (input : node.inputs[node.op.layout.firstControl]? = some control) :
    Yields (old.relaxControls id) (Redirected old id id id control) := by
  rw [relaxControls, replaceWithValue]
  refine yields_bind (fun layout => layout = node.op.layout) (layout_yields read rfl) ?_
  rintro _ rfl
  have own : Yields (old.controlInput id) fun found => found = control := by
    rw [controlInput]
    refine yields_bind (fun layout => layout = node.op.layout) (layout_yields read rfl) ?_
    rintro _ rfl
    refine yields_bind (fun _ => True) (yields_require fun _ => trivial) fun _ _ => ?_
    rw [Graph.input, (old.node_eq_ok id node).mpr read]
    exact yields_present fun found same => Option.some.inj (same.symm.trans input)
  refine yields_bind (fun found => found = some id) (yields_pure rfl) ?_
  rintro _ rfl
  dsimp only
  rw [if_pos controls]
  refine yields_bind (fun found => found = some control) ?_ ?_
  · exact yields_map (yields_mono own fun found same => congrArg some same)
  · rintro _ rfl
    exact redirect_all_yields able

end

end Graph

end SeaOfNodes
