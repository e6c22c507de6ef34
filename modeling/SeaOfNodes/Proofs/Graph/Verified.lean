import SeaOfNodes.Proofs.BitSets
import SeaOfNodes.Proofs.Graph.Nodes

namespace SeaOfNodes.Graph

open List

variable {graph : Graph} {id : NodeId} {result : Unit}

def Live (graph : Graph) (id : NodeId) (node : Node) : Prop := graph.node? id = some node ∧ node.dead = false

def ControlUsed (graph : Graph) (id : NodeId) : Prop :=
  ∃ user node, graph.Live user node ∧ id ∈ controlInputs node

structure Verified (graph : Graph) : Prop where
  single : (graph.liveEntries.countP fun entry => entry.2.op = .control .start) = 1
  fits : ∀ id node, graph.Live id node → node.op.fits = true
  counted : ∀ id node, graph.Live id node → node.inputs.length = node.op.layout.total
  inputs : ∀ id node, graph.Live id node → ∀ input ∈ node.inputs, ∃ definition, graph.Live input definition
  controls : ∀ id node, graph.Live id node → id ≠ stop → node.op.isControl = true → graph.ControlUsed id

theorem mem_control_inputs {node : Node} {input : NodeId} :
    input ∈ controlInputs node ↔ ∃ index, node.op.layout.firstControl ≤ index ∧ node.inputs[index]? = some input := by
  rw [controlInputs, mem_iff_getElem?]
  constructor
  · rintro ⟨place, read⟩
    rw [getElem?_drop] at read
    exact ⟨_, Nat.le_add_right _ place, read⟩
  · rintro ⟨index, late, read⟩
    refine ⟨index - node.op.layout.firstControl, ?_⟩
    rw [getElem?_drop, Nat.add_sub_cancel' late]
    exact read

theorem edge_kind_control {layout : InputLayout} {index : Nat} (late : layout.firstControl ≤ index) :
    layout.edgeKind index = .control := by
  have order : layout.values + layout.context.toNat + layout.frameState.toNat ≤ index := by
    simp only [InputLayout.firstControl, InputLayout.firstEffect, InputLayout.frameStateIndex] at late
    omega
  have below : ¬ index < layout.values := by omega
  have context : (layout.context && index == layout.contextIndex) = false := by
    cases taken : layout.context
    · rfl
    · simp only [taken, Bool.toNat_true] at order
      simp only [Bool.true_and, beq_eq_false_iff_ne, InputLayout.contextIndex]
      omega
  have state : (layout.frameState && index == layout.frameStateIndex) = false := by
    cases taken : layout.frameState
    · rfl
    · simp only [taken, Bool.toNat_true] at order
      simp only [Bool.true_and, beq_eq_false_iff_ne, InputLayout.frameStateIndex]
      omega
  simp [InputLayout.edgeKind, below, context, state, not_lt.mpr late]

theorem mem_live_entries (graph : Graph) {id : NodeId} {node : Node} :
    (id, node) ∈ graph.liveEntries ↔ graph.Live id node := by
  rw [liveEntries, mem_filter, Pool.mem_entries, Live, node?]
  simp

theorem live_unique (graph : Graph) {id : NodeId} {node other : Node} (first : graph.Live id node)
    (second : graph.Live id other) : node = other :=
  Option.some.inj (first.1.symm.trans second.1)

theorem live_ids_nodup : (graph.liveEntries.map Prod.fst).Nodup := by
  refine (filter_sublist.map Prod.fst).nodup ?_
  rw [Pool.entries, map_fst_zip (by simp [Pool.ids, Pool.toList])]
  exact nodup_range

-- One live node passes a test of operators, so that it is the only one.
theorem count_live_eq_one (graph : Graph) (test : Operator → Bool) {node : Node} (live : graph.Live id node)
    (holds : test node.op) :
    (graph.liveEntries.countP fun entry => test entry.2.op) = 1 ↔
      ∀ other next, graph.Live other next → test next.op → other = id := by
  have member := graph.mem_live_entries.mpr live
  constructor
  · intro single other next alive passes
    rw [countP_eq_length_filter, length_eq_one_iff] at single
    obtain ⟨entry, listed⟩ := single
    have first : (id, node) ∈ graph.liveEntries.filter fun entry => test entry.2.op := mem_filter.mpr ⟨member, holds⟩
    have second : (other, next) ∈ graph.liveEntries.filter fun entry => test entry.2.op :=
      mem_filter.mpr ⟨graph.mem_live_entries.mpr alive, passes⟩
    rw [listed, mem_singleton] at first second
    exact congrArg Prod.fst (second.trans first.symm)
  · intro only
    refine le_antisymm ?_ (countP_pos_iff.mpr ⟨_, member, holds⟩)
    calc (graph.liveEntries.countP fun entry => test entry.2.op)
        ≤ graph.liveEntries.countP ((· == id) ∘ Prod.fst) := by
          refine countP_mono_left fun entry listed passes => ?_
          simpa using only entry.1 entry.2 (graph.mem_live_entries.mp listed) passes
      _ = (graph.liveEntries.map Prod.fst).count id := (countP_map).symm
      _ ≤ 1 := nodup_iff_count_le_one.mp graph.live_ids_nodup id

theorem verify_input_eq_ok {input : NodeId × Nat} :
    graph.verifyInput id input = .ok result ↔ ∃ definition, graph.Live input.1 definition := by
  rw [verifyInput]
  cases read : graph.node? input.1 with
  | none => simp [Live, read]
  | some definition => cases dead : definition.dead <;> simp [Live, read, dead]

theorem verify_node_eq_ok {entry : NodeId × Node} :
    graph.verifyNode entry = .ok result ↔ entry.2.op.fits ∧ entry.2.inputs.length = entry.2.op.layout.total ∧
      ∀ input ∈ entry.2.inputs, ∃ definition, graph.Live input definition := by
  have listed : (∀ item ∈ entry.2.inputs.zipIdx, graph.verifyInput entry.1 item = .ok ()) ↔
      ∀ input ∈ entry.2.inputs, ∃ definition, graph.Live input definition := by
    simp only [verify_input_eq_ok]
    constructor
    · intro all input member
      obtain ⟨index, inside, read⟩ := getElem_of_mem member
      exact all (input, index) (mem_zipIdx_iff_getElem?.mpr (by simp [inside, read]))
    · intro all item member
      exact all item.1 (mem_of_getElem? (mem_zipIdx_iff_getElem?.mp member))
  simp only [verifyNode, bind_eq_ok, map_error_eq_ok, checked_layout_eq_ok]
  constructor
  · rintro ⟨layout, ⟨fits, rfl⟩, rest⟩
    split at rest
    · exact ⟨fits, ‹_›, listed.mp (for_m_eq_ok.mp rest)⟩
    · cases rest
  · rintro ⟨fits, counted, all⟩
    refine ⟨_, ⟨fits, rfl⟩, ?_⟩
    rw [if_pos counted]
    exact for_m_eq_ok.mpr (listed.mpr all)

theorem contains_control_used (graph : Graph) (id : NodeId) : graph.controlUsed.contains id ↔ graph.ControlUsed id := by
  rw [controlUsed, BitSet.contains_fold_insert, BitSet.contains_with_capacity, mem_flatMap]
  constructor
  · rintro (⟨⟨user, node⟩, member, input⟩ | impossible)
    · exact ⟨user, node, graph.mem_live_entries.mp member, input⟩
    · cases impossible
  · rintro ⟨user, node, live, input⟩
    exact .inl ⟨(user, node), graph.mem_live_entries.mpr live, input⟩

theorem verify_eq_ok (graph : Graph) : graph.verify = .ok () ↔ graph.Verified := by
  have control : ∀ entry : NodeId × Node, verifyControl graph.controlUsed entry = .ok () ↔
      (entry.1 ≠ stop → entry.2.op.isControl → graph.ControlUsed entry.1) := by
    intro entry
    rw [← contains_control_used, verifyControl]
    by_cases last : entry.1 = stop <;> cases entry.2.op.isControl <;> cases graph.controlUsed.contains entry.1 <;>
      simp [last]
  rw [verify]
  by_cases single : (graph.liveEntries.countP fun entry => entry.2.op = .control .start) = 1
  · simp only [single, if_true, bind_eq_ok, for_m_eq_ok, verify_node_eq_ok, control]
    constructor
    · rintro ⟨_, nodes, controls⟩
      exact ⟨single, fun id node live => (nodes _ (graph.mem_live_entries.mpr live)).1,
        fun id node live => (nodes _ (graph.mem_live_entries.mpr live)).2.1,
        fun id node live => (nodes _ (graph.mem_live_entries.mpr live)).2.2,
        fun id node live => controls _ (graph.mem_live_entries.mpr live)⟩
    · intro verified
      refine ⟨(), ?_, ?_⟩
      · rintro ⟨id, node⟩ member
        have live := graph.mem_live_entries.mp member
        exact ⟨verified.fits id node live, verified.counted id node live, verified.inputs id node live⟩
      · rintro ⟨id, node⟩ member
        exact verified.controls id node (graph.mem_live_entries.mp member)
  · constructor
    · intro accepted
      simp [single] at accepted
    · intro verified
      exact absurd verified.single single

end SeaOfNodes.Graph
