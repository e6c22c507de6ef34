import SeaOfNodes.Proofs.Graph.Verified

/-! What each answer of the verifier says about the graph. -/

namespace SeaOfNodes

open List

theorem checked_layout_eq_error (op : Operator) (fault : Fault) :
    op.checkedLayout = .error fault ↔ op.fits = false ∧ fault = .overflow := by
  cases fits : op.fits
  · simp [Operator.checkedLayout, fits, eq_comm]
  · simp [Operator.checkedLayout, fits]

namespace Graph

def starts (graph : Graph) : Set NodeId := { id | ∃ node, graph.Live id node ∧ node.op = .control .start }

def TakesControl (graph : Graph) (id : NodeId) : Prop :=
  ∃ user node index, graph.Live user node ∧ node.inputs[index]? = some id ∧ node.op.layout.edgeKind index = .control

end Graph

def VerifyError.Describes (graph : Graph) : VerifyError → Prop
  | .startCount count => graph.starts.ncard = count ∧ count ≠ 1
  | .inputCount id op expected actual =>
    (∃ node layout, graph.Live id node ∧ node.op = op ∧ op.checkedLayout = .ok layout ∧ layout.total = expected ∧
      node.inputs.length = actual) ∧ actual ≠ expected
  | .invalidInput id index input =>
    (∃ node, graph.Live id node ∧ node.inputs[index]? = some input) ∧ graph.node? input = none
  | .deadInput id input =>
    (∃ node, graph.Live id node ∧ input ∈ node.inputs) ∧ ∃ definition, graph.node? input = some definition ∧ definition.dead = true
  | .unterminatedControl id op =>
    (∃ node, graph.Live id node ∧ node.op = op ∧ op.isControl = true) ∧ id ≠ Graph.stop ∧ ¬ graph.TakesControl id

namespace Graph

variable {id : NodeId} {node : Node} {failure : Failure VerifyError} (graph : Graph)

theorem count_starts : (graph.liveEntries.countP fun entry => entry.2.op = .control .start) = graph.starts.ncard := by
  let found := (graph.liveEntries.filter fun entry => entry.2.op = .control .start).map Prod.fst
  have distinct : found.Nodup := (filter_sublist.map Prod.fst).nodup graph.live_ids_nodup
  have same : graph.starts = (found.toFinset : Set NodeId) := by
    ext id
    rw [Finset.mem_coe, mem_toFinset, mem_map]
    constructor
    · rintro ⟨node, live, starts⟩
      exact ⟨(id, node), mem_filter.mpr ⟨graph.mem_live_entries.mpr live, by simpa using starts⟩, rfl⟩
    · rintro ⟨entry, member, here⟩
      obtain ⟨listed, starts⟩ := mem_filter.mp member
      exact ⟨entry.2, here ▸ graph.mem_live_entries.mp listed, by simpa using starts⟩
  rw [same, Set.ncard_coe_finset, toFinset_card_of_nodup distinct, length_map, countP_eq_length_filter]

theorem edge_kind_eq_control {layout : InputLayout} {index : Nat} :
    layout.edgeKind index = .control ↔ layout.firstControl ≤ index := by
  constructor
  · intro control
    by_contra early
    rw [InputLayout.edgeKind, if_pos (Nat.lt_of_not_le early)] at control
    split at control
    · cases control
    · split at control
      · cases control
      · split at control <;> cases control
  · exact edge_kind_control

theorem control_used_iff (id : NodeId) : graph.ControlUsed id ↔ graph.TakesControl id := by
  constructor
  · rintro ⟨user, node, live, member⟩
    obtain ⟨index, late, read⟩ := mem_control_inputs.mp member
    exact ⟨user, node, index, live, read, edge_kind_control late⟩
  · rintro ⟨user, node, index, live, read, control⟩
    exact ⟨user, node, live, mem_control_inputs.mpr ⟨index, edge_kind_eq_control.mp control, read⟩⟩

theorem verify_input_rejects (live : graph.Live id node) {item : NodeId × Nat} (member : item ∈ node.inputs.zipIdx)
    (failed : graph.verifyInput id item = .error failure) : ∃ error, failure = .rejected error ∧ error.Describes graph := by
  have read : node.inputs[item.2]? = some item.1 := mem_zipIdx_iff_getElem?.mp member
  rw [verifyInput] at failed
  cases found : graph.node? item.1 with
  | none =>
    rw [found] at failed
    cases failed
    exact ⟨_, rfl, ⟨node, live, read⟩, found⟩
  | some definition =>
    cases dead : definition.dead with
    | false => simp [found, dead] at failed
    | true =>
      simp only [found, dead, if_true, Except.error.injEq] at failed
      exact ⟨_, failed.symm, ⟨node, live, mem_of_getElem? read⟩, definition, found, dead⟩

theorem verify_node_rejects (live : graph.Live id node) (failed : graph.verifyNode (id, node) = .error failure) :
    (failure = .fault .overflow ∧ node.op.fits = false) ∨ ∃ error, failure = .rejected error ∧ error.Describes graph := by
  rw [verifyNode, bind_eq_error] at failed
  rcases failed with uncounted | ⟨layout, counted, rest⟩
  · cases outcome : node.op.checkedLayout with
    | ok layout => simp [outcome, Except.mapError] at uncounted
    | error fault =>
      obtain ⟨wide, rfl⟩ := (checked_layout_eq_error node.op fault).mp outcome
      simp only [outcome, Except.mapError, Except.error.injEq] at uncounted
      exact .inl ⟨uncounted.symm, wide⟩
  · have known := (map_error_eq_ok _ _ _).mp counted
    by_cases same : node.inputs.length = layout.total
    · rw [if_pos same] at rest
      obtain ⟨item, member, here⟩ := for_m_eq_error rest
      exact .inr (graph.verify_input_rejects live member here)
    · rw [if_neg same] at rest
      cases rest
      exact .inr ⟨_, rfl, ⟨node, layout, live, rfl, known, rfl, rfl⟩, same⟩

theorem verify_control_rejects (live : graph.Live id node) (failed : verifyControl graph.controlUsed (id, node) = .error failure) :
    ∃ error, failure = .rejected error ∧ error.Describes graph := by
  rw [verifyControl] at failed
  split at failed
  · cases failed
  · rename_i loose
    simp only [Bool.or_eq_true, decide_eq_true_eq, Bool.not_eq_true', not_or] at loose
    obtain ⟨⟨inner, control⟩, unused⟩ := loose
    cases failed
    refine ⟨_, rfl, ⟨node, live, rfl, by simpa using control⟩, inner, ?_⟩
    rw [← control_used_iff, ← contains_control_used]
    exact unused

theorem verify_rejects (failure : Failure VerifyError) (failed : graph.verify = .error failure) :
    (failure = .fault .overflow ∧ ∃ id node, graph.Live id node ∧ node.op.fits = false) ∨
      ∃ error, failure = .rejected error ∧ error.Describes graph := by
  rw [verify] at failed
  by_cases single : (graph.liveEntries.countP fun entry => entry.2.op = .control .start) = 1
  · simp only [single, if_true] at failed
    rcases bind_eq_error.mp failed with nodes | ⟨_, _, controls⟩
    · obtain ⟨⟨id, node⟩, member, here⟩ := for_m_eq_error nodes
      have live := graph.mem_live_entries.mp member
      rcases graph.verify_node_rejects live here with ⟨fault, wide⟩ | described
      · exact .inl ⟨fault, id, node, live, wide⟩
      · exact .inr described
    · obtain ⟨⟨id, node⟩, member, here⟩ := for_m_eq_error controls
      exact .inr (graph.verify_control_rejects (graph.mem_live_entries.mp member) here)
  · simp only [single, if_false, Except.error.injEq] at failed
    exact .inr ⟨_, failed.symm, graph.count_starts.symm, single⟩

end Graph

-- The verifier accepts exactly the graphs that are in order.
theorem verdict_faithful (graph : Graph) : (graph.verify = .ok () ↔ graph.starts.ncard = 1 ∧ ∀ id node, graph.Live id node →
      (∃ layout, node.op.checkedLayout = .ok layout ∧ node.inputs.length = layout.total) ∧
        (∀ input ∈ node.inputs, ∃ definition, graph.Live input definition) ∧
        (id ≠ Graph.stop → node.op.isControl = true → graph.TakesControl id)) ∧
      (∀ error, graph.verify = .error (.rejected error) → error.Describes graph) ∧
      ∀ fault, graph.verify = .error (.fault fault) →
        fault = .overflow ∧ ∃ id node, graph.Live id node ∧ node.op.checkedLayout = .error .overflow := by
  refine ⟨?_, ?_, ?_⟩
  · rw [graph.verify_eq_ok, ← graph.count_starts]
    constructor
    · intro verified
      refine ⟨verified.single, fun id node live => ⟨⟨_, ?_, verified.counted id node live⟩, verified.inputs id node live, ?_⟩⟩
      · exact (checked_layout_eq_ok _ _).mpr ⟨verified.fits id node live, rfl⟩
      · intro inner control
        exact (graph.control_used_iff id).mp (verified.controls id node live inner control)
    · rintro ⟨single, all⟩
      refine ⟨single, fun id node live => ?_, fun id node live => ?_, fun id node live => (all id node live).2.1, ?_⟩
      · obtain ⟨⟨layout, known, _⟩, _⟩ := all id node live
        exact ((checked_layout_eq_ok _ _).mp known).1
      · obtain ⟨⟨layout, known, counted⟩, _⟩ := all id node live
        rw [counted, ((checked_layout_eq_ok _ _).mp known).2]
      · intro id node live inner control
        exact (graph.control_used_iff id).mpr ((all id node live).2.2 inner control)
  · intro error failed
    rcases graph.verify_rejects _ failed with ⟨impossible, _⟩ | ⟨other, same, described⟩
    · cases impossible
    · cases same
      exact described
  · intro fault failed
    rcases graph.verify_rejects _ failed with ⟨same, id, node, live, wide⟩ | ⟨_, impossible, _⟩
    · cases same
      exact ⟨rfl, id, node, live, (checked_layout_eq_error _ _).mpr ⟨wide, rfl⟩⟩
    · cases impossible

end SeaOfNodes
