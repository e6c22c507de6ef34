import SeaOfNodes.Proofs.Graph.Wired
import SeaOfNodes.Proofs.Schedule.Endings

namespace SeaOfNodes.Graph

variable {node : Node}

theorem count_entry (graph : Graph) (wired : graph.Wired) :
    (graph.liveEntries.countP fun entry => entry.2.op = .control .start) = 1 := by
  obtain ⟨node, read, starts⟩ := wired.entry
  have live : graph.Live start node := ⟨read, (wired.nodes start node read).live⟩
  refine (graph.count_live_eq_one (· = .control .start) live (by simp [starts])).mpr ?_
  intro other next alive begins
  exact (wired.nodes other next alive.1).single (by simpa using begins)

-- Ids are words, so the exit can count its inputs.
theorem exit_counted (graph : Graph) (wired : graph.Wired) (addressed : graph.size ≤ Handle.invalid)
    (read : graph.node? stop = some node) : node.inputs.length = node.op.layout.total := by
  have room := wired.room
  rw [graph.inputs_of_eq stop node read] at room
  have fits : node.inputs.length < UInt32.size := by
    change graph.size ≤ 4294967295 at addressed
    change node.inputs.length < 4294967296
    omega
  rw [((wired.nodes stop node read).exit rfl).1]
  change node.inputs.length = 0 + (UInt32.ofNat node.inputs.length).toNat
  rw [UInt32.toNat_ofNat_of_lt' fits, zero_add]

theorem wired_counted (graph : Graph) (wired : graph.Wired) (addressed : graph.size ≤ Handle.invalid) {id : NodeId}
    (read : graph.node? id = some node) : node.inputs.length = node.op.layout.total := by
  by_cases last : id = stop
  · exact graph.exit_counted wired addressed (last ▸ read)
  · exact (wired.nodes id node read).counted last

theorem wired_verified (graph : Graph) (wired : graph.Wired) (addressed : graph.size ≤ Handle.invalid)
    (used : ∀ id, graph.Carries Operator.isControl id → graph.Used id) : graph.Verified where
  single := graph.count_entry wired
  fits id node live := (wired.nodes id node live.1).fits
  counted id node live := graph.wired_counted wired addressed live.1
  inputs id node live input member := by
    obtain ⟨definition, read⟩ := graph.node_of_lt input ((wired.nodes id node live.1).named input member).1
    exact ⟨definition, read, (wired.nodes input definition read).live⟩
  controls id node live _ control := by
    obtain ⟨user, other, read, member⟩ := used id ⟨node, live.1, control⟩
    exact ⟨user, other, ⟨read, (wired.nodes user other read).live⟩, member⟩

theorem wired_input (graph : Graph) (wired : graph.Wired) {id input : NodeId} (edge : input ∈ graph.inputsOf id) :
    graph.Named input := by
  cases read : graph.node? id with
  | none =>
    rw [inputsOf, read] at edge
    cases edge
  | some node =>
    rw [graph.inputs_of_eq id node read] at edge
    exact (wired.nodes id node read).named input edge

theorem wired_exit (graph : Graph) (wired : graph.Wired) : ∃ node, graph.node? stop = some node := by
  have room := wired.room
  exact graph.node_of_lt stop (show 1 < graph.size by omega)

theorem wired_anchored (graph : Graph) (wired : graph.Wired) : graph.Anchored := by
  obtain ⟨node, read, starts⟩ := wired.entry
  obtain ⟨last, there⟩ := graph.wired_exit wired
  refine ⟨⟨node, ⟨read, (wired.nodes start node read).live⟩, by rw [starts]; rfl⟩, last, there, fun input edge => ?_⟩
  obtain ⟨definition, found⟩ := graph.node_of_lt input ((wired.nodes stop last there).named input edge).1
  exact ⟨definition, found, (wired.nodes input definition found).live⟩

-- A cycle comes back to an earlier node, and a node that is not the exit only requires earlier ones.
theorem wired_acyclic (graph : Graph) (wired : graph.Wired) (cycle : List NodeId) : ¬ graph.Cycle cycle := by
  intro closed
  have inner : ∀ a b, graph.Requires a b → b ≠ stop := fun a b requires =>
    (graph.wired_input wired (graph.requires_input requires)).2
  obtain ⟨first, begins⟩ := graph.cycle_member closed
  obtain ⟨next, member, requires⟩ := graph.cycle_next closed begins
  refine graph.cycle_descends closed (· ≠ stop) (· < ·) ?_ member (inner first next requires) (Nat.lt_wfRel.wf.apply next)
  intro a _ other b _ step
  obtain ⟨node, read, starts, phi, edge⟩ := step
  exact ⟨inner a b ⟨node, read, starts, phi, edge⟩, (wired.nodes a node read).earlier other starts phi b edge⟩

theorem wired_taken (graph : Graph) (wired : graph.Wired) {user id : NodeId} (read : graph.node? user = some node)
    (taken : id ∈ controlInputs node) :
    id ≠ stop ∧ ∃ definition, graph.node? id = some definition ∧ definition.op.isControl ∧
      (user ≠ stop → definition.op.isTerminator = false) := by
  have edge := List.mem_of_mem_drop taken
  refine ⟨((wired.nodes user node read).named id edge).2, ?_⟩
  by_cases last : user = stop
  · obtain ⟨definition, found, control⟩ := ((wired.nodes user node read).exit last).2 id edge
    exact ⟨definition, found, control, fun other => absurd last other⟩
  · obtain ⟨definition, found, continues⟩ := (wired.nodes user node read).controls last id taken
    rw [Operator.continues, Bool.and_eq_true, Bool.not_eq_true'] at continues
    exact ⟨definition, found, continues.1, fun _ => continues.2⟩

theorem wired_straight (graph : Graph) (wired : graph.Wired) : ¬ graph.Stuck := by
  -- Each step of a walk goes to an earlier node.
  have descends : ∀ origin id node, graph.node? id = some node → node.op.isControl → id ≠ stop →
      ¬ graph.Roams origin id := by
    intro origin id
    induction id using Nat.strongRecOn with
    | ind id earlier =>
      intro node read control other roams
      obtain ⟨previous, step, further⟩ := roams_step roams
      obtain ⟨again, found, first, edge⟩ := graph.control_input_head step.2
      cases read.symm.trans found
      obtain ⟨inner, definition, there, passes, _⟩ := graph.wired_taken wired read (List.mem_of_mem_head? first)
      have starts : node.op.startsBlock = false := by
        by_contra begins
        exact step.1 ⟨node, read, .inl ⟨by simpa using begins, other⟩⟩
      rw [graph.inputs_of_eq id node read] at edge
      have lower := (wired.nodes id node read).earlier other starts (node.op.control_not_phi control) previous edge
      exact earlier previous lower definition there passes inner further
  rintro ⟨id, _, first, taken, roams⟩
  obtain ⟨node, read, head, _⟩ := graph.control_input_head taken
  obtain ⟨inner, definition, there, control, _⟩ := graph.wired_taken wired read (List.mem_of_mem_head? head)
  exact descends id first definition there control inner roams

theorem wired_steers (graph : Graph) (wired : graph.Wired) (id : NodeId) : ¬ graph.Strays id := by
  rintro (⟨user, _, edge⟩ | ⟨node, read, inner, ⟨⟨user, used, _, other, found, taken⟩, blocks⟩ | ⟨edge, free⟩⟩)
  · exact (graph.wired_input wired edge).2 rfl
  · obtain ⟨named, definition, there, control, passes⟩ := graph.wired_taken wired found taken
    cases read.symm.trans there
    rcases blocks with ends | free
    · rw [passes other] at ends
      cases ends
    · exact named (inner (node.op.starts_of_free control free))
  · obtain ⟨last, there⟩ := graph.wired_exit wired
    rw [graph.inputs_of_eq stop last there] at edge
    obtain ⟨definition, found, control⟩ := ((wired.nodes stop last there).exit rfl).2 id edge
    cases read.symm.trans found
    exact ((wired.nodes stop last there).named id edge).2 (inner (node.op.starts_of_free control free))

theorem wired_scheduled (graph : Graph) (wired : graph.Wired) (verified : graph.Verified) :
    (∃ schedule, Schedule.ofGraph graph = .ok schedule) ∨
      ∃ node, Schedule.ofGraph graph = .error (.rejected (.unplaced node)) := by
  have accounted := Schedule.of_graph_accounted verified
  cases run : Schedule.ofGraph graph with
  | ok schedule => exact .inl ⟨schedule, rfl⟩
  | error failure =>
    have cause := accounted failure run
    cases failure with
    | fault fault =>
      rcases cause with ⟨_, stuck⟩ | ⟨_, loose⟩
      · exact absurd stuck (graph.wired_straight wired)
      · exact absurd (graph.wired_anchored wired) loose
    | rejected error =>
      cases error with
      | unplaced node => exact .inr ⟨node, rfl⟩
      | unexpectedControl id op => exact absurd cause (graph.wired_steers wired id)
      | cycle id =>
        obtain ⟨cycle, closed, _⟩ := cause
        exact absurd closed (graph.wired_acyclic wired cycle)

end SeaOfNodes.Graph
