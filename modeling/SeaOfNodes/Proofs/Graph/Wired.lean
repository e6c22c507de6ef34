import SeaOfNodes.Proofs.Schedule.Homes

namespace SeaOfNodes

def Operator.family (op : Operator) : Operator := (op.withArity? 0).getD op

def ByFamily (test : Operator → Bool) : Prop := ∀ op other, op.family = other.family → test op = test other

theorem by_family_of_eq {test : Operator → Bool} (same : ∀ op : Operator, test op.family = test op) : ByFamily test := by
  intro op other equal
  rw [← same op, equal, same other]

theorem is_control_by_family : ByFamily Operator.isControl := by
  apply by_family_of_eq
  intro op
  cases op with
  | control kind => cases kind <;> rfl
  | _ => rfl

theorem continues_by_family : ByFamily Operator.continues := by
  apply by_family_of_eq
  intro op
  cases op with
  | control kind => cases kind <;> rfl
  | _ => rfl

theorem is_phi_by_family : ByFamily Operator.isPhi := by
  apply by_family_of_eq
  intro op
  cases op with
  | control kind => cases kind <;> rfl
  | _ => rfl

theorem is_merge_by_family : ByFamily Operator.isMerge := by
  apply by_family_of_eq
  intro op
  cases op with
  | control kind => cases kind <;> rfl
  | _ => rfl

theorem is_constant_by_family : ByFamily Operator.isConstant := by
  apply by_family_of_eq
  intro op
  cases op with
  | control kind => cases kind <;> rfl
  | _ => rfl

namespace Graph

variable {id : NodeId} {old new : Graph} {node next : Node}

def Carries (graph : Graph) (test : Operator → Bool) (id : NodeId) : Prop :=
  ∃ node, graph.node? id = some node ∧ test node.op = true

def Named (graph : Graph) (id : NodeId) : Prop := id < graph.size ∧ id ≠ stop

def Used (graph : Graph) (id : NodeId) : Prop := ∃ user node, graph.node? user = some node ∧ id ∈ controlInputs node

structure Grown (old new : Graph) : Prop where
  size : old.size ≤ new.size
  keeps : ∀ id node, old.node? id = some node → ∃ next, new.node? id = some next ∧
    next.op.family = node.op.family ∧ ∀ input ∈ controlInputs node, input ∈ controlInputs next

theorem grown_refl {graph : Graph} : Grown graph graph :=
  ⟨le_rfl, fun _ node read => ⟨node, read, rfl, fun _ => id⟩⟩

namespace Grown

variable {old new : Graph} (grown : Grown old new)

include grown

theorem trans {last : Graph} (further : Grown new last) : Grown old last := by
  refine ⟨grown.size.trans further.size, fun id node read => ?_⟩
  obtain ⟨middle, there, family, inputs⟩ := grown.keeps id node read
  obtain ⟨next, final, again, more⟩ := further.keeps id middle there
  exact ⟨next, final, again.trans family, fun input member => more input (inputs input member)⟩

theorem named (known : old.Named id) : new.Named id := ⟨known.1.trans_le grown.size, known.2⟩

theorem carries (test : Operator → Bool) (stable : ByFamily test) (id : NodeId) (carries : old.Carries test id) :
    new.Carries test id := by
  obtain ⟨node, read, holds⟩ := carries
  obtain ⟨next, there, family, _⟩ := grown.keeps id node read
  exact ⟨next, there, (stable next.op node.op family).trans holds⟩

theorem used (id : NodeId) (used : old.Used id) : new.Used id := by
  obtain ⟨user, node, read, member⟩ := used
  obtain ⟨next, there, _, inputs⟩ := grown.keeps user node read
  exact ⟨user, next, there, inputs id member⟩

end Grown

structure NodeWired (graph : Graph) (id : NodeId) (node : Node) : Prop where
  live : node.dead = false
  fits : node.op.fits = true
  counted : id ≠ stop → node.inputs.length = node.op.layout.total
  named : ∀ input ∈ node.inputs, graph.Named input
  earlier : id ≠ stop → node.op.startsBlock = false → node.op.isPhi = false → ∀ input ∈ node.inputs, input < id
  controls : id ≠ stop → ∀ input ∈ controlInputs node, graph.Carries Operator.continues input
  single : node.op = .control .start → id = start
  exit : id = stop → node.op = .control (.stop (UInt32.ofNat node.inputs.length)) ∧
    ∀ input ∈ node.inputs, graph.Carries Operator.isControl input

-- Every node has the inputs that its operator takes, control only from nodes that pass it on, and other inputs from earlier nodes
-- unless it merges.
structure Wired (graph : Graph) : Prop where
  nodes : ∀ id node, graph.node? id = some node → graph.NodeWired id node
  entry : ∃ node, graph.node? start = some node ∧ node.op = .control .start
  room : (graph.inputsOf stop).length + 2 ≤ graph.size
  constants : ∀ entry ∈ graph.constants, graph.Carries Operator.isConstant entry.2

theorem node_wired_grown (grown : Grown old new) (wired : old.NodeWired id node) : new.NodeWired id node :=
  { live := wired.live
    fits := wired.fits
    counted := wired.counted
    named := fun input member => grown.named (wired.named input member)
    earlier := wired.earlier
    controls := fun inner input member =>
      grown.carries _ continues_by_family input (wired.controls inner input member)
    single := wired.single
    exit := fun last => ⟨(wired.exit last).1, fun input member =>
      grown.carries _ is_control_by_family input ((wired.exit last).2 input member)⟩ }

theorem grown_push (graph : Graph) (node : Node) : Grown graph (graph.push node).2 := by
  refine ⟨by rw [size_push]; omega, fun id old read => ⟨old, ?_, rfl, fun _ member => member⟩⟩
  have inside := graph.node_lt read
  rw [node_push, if_neg (inside.ne)]
  exact read

theorem wired_push (graph : Graph) (wired : graph.Wired) (op : Operator) (inputs : List NodeId) (fits : op.fits)
    (counted : inputs.length = op.layout.total) (named : ∀ input ∈ inputs, graph.Named input)
    (controls : ∀ input ∈ inputs.drop op.layout.firstControl, graph.Carries Operator.continues input)
    (inner : op ≠ .control .start) : (graph.push { op := op, inputs := inputs }).2.Wired := by
  have grown := graph.grown_push { op := op, inputs := inputs }
  have room := wired.room
  have startBelow : start ≠ graph.size := ne_of_lt (show 0 < graph.size by omega)
  have stopBelow : stop ≠ graph.size := ne_of_lt (show 1 < graph.size by omega)
  refine ⟨?_, ?_, ?_, ?_⟩
  · intro id node read
    rw [node_push] at read
    split at read
    · rename_i same
      cases read
      exact
        { live := rfl
          fits := fits
          counted := fun _ => counted
          named := fun input member => grown.named (named input member)
          earlier := fun _ _ _ input member => same ▸ (named input member).1
          controls := fun _ input member => grown.carries _ continues_by_family input (controls input member)
          single := fun impossible => absurd impossible inner
          exit := fun last => absurd (last.symm.trans same) stopBelow }
    · exact node_wired_grown grown (wired.nodes id node read)
  · obtain ⟨node, read, starts⟩ := wired.entry
    refine ⟨node, ?_, starts⟩
    rw [node_push, if_neg startBelow]
    exact read
  · have kept : (graph.push { op := op, inputs := inputs }).2.inputsOf stop = graph.inputsOf stop := by
      rw [inputsOf, node_push, if_neg stopBelow, inputsOf]
    rw [kept, size_push]
    omega
  · intro entry member
    rw [constants_push] at member
    exact grown.carries _ is_constant_by_family _ (wired.constants entry member)

-- One node is changed: it stays of its family, keeps its control inputs, and is wired.
theorem grown_update (read : old.node? id = some node) (size : new.size = old.size)
    (nodes : ∀ other, new.node? other = if other = id then some next else old.node? other)
    (family : next.op.family = node.op.family) (controls : ∀ input ∈ controlInputs node, input ∈ controlInputs next) :
    Grown old new := by
  refine ⟨size.symm.le, fun other former here => ?_⟩
  rw [nodes other]
  split
  · rename_i same
    rw [same, read] at here
    cases here
    exact ⟨next, rfl, family, controls⟩
  · exact ⟨former, here, rfl, fun _ member => member⟩

theorem wired_update (wired : old.Wired) (read : old.node? id = some node) (size : new.size = old.size)
    (nodes : ∀ other, new.node? other = if other = id then some next else old.node? other)
    (family : next.op.family = node.op.family) (controls : ∀ input ∈ controlInputs node, input ∈ controlInputs next)
    (table : new.constants = old.constants) (changed : new.NodeWired id next)
    (room : id = stop → next.inputs.length + 2 ≤ old.size) : new.Wired := by
  have grown := grown_update read size nodes family controls
  refine ⟨?_, ?_, ?_, ?_⟩
  · intro other found here
    rw [nodes other] at here
    split at here
    · rename_i same
      cases here
      exact same ▸ changed
    · exact node_wired_grown grown (wired.nodes other found here)
  · obtain ⟨first, there, starts⟩ := wired.entry
    obtain ⟨last, final, same, _⟩ := grown.keeps start first there
    refine ⟨last, final, ?_⟩
    rw [starts] at same
    revert same
    cases last.op with
    | control kind => cases kind <;> simp [Operator.family, Operator.withArity?]
    | _ => simp [Operator.family, Operator.withArity?]
  · by_cases last : stop = id
    · rw [inputsOf, nodes stop, if_pos last, size]
      exact room last.symm
    · rw [inputsOf, nodes stop, if_neg last, size]
      exact wired.room
  · intro entry member
    rw [table] at member
    exact grown.carries _ is_constant_by_family _ (wired.constants entry member)

theorem wired_same_nodes (old new : Graph) (wired : old.Wired) (read : ∀ id, new.node? id = old.node? id)
    (size : new.size = old.size) (table : ∀ entry ∈ new.constants, old.Carries Operator.isConstant entry.2) :
    new.Wired ∧ Grown old new := by
  have grown : Grown old new :=
    ⟨size.symm.le, fun id node here => ⟨node, (read id).trans here, rfl, fun _ member => member⟩⟩
  refine ⟨⟨?_, ?_, ?_, ?_⟩, grown⟩
  · intro id node here
    exact node_wired_grown grown (wired.nodes id node ((read id).symm.trans here))
  · obtain ⟨node, here, starts⟩ := wired.entry
    exact ⟨node, (read start).trans here, starts⟩
  · rw [inputsOf, read, size]
    exact wired.room
  · intro entry member
    exact grown.carries _ is_constant_by_family _ (table entry member)

theorem wired_named (graph : Graph) (wired : graph.Wired) {test : Operator → Bool} (carries : graph.Carries test id)
    (inner : ∀ count, test (.control (.stop count)) = false) : graph.Named id := by
  obtain ⟨node, read, holds⟩ := carries
  refine ⟨graph.node_lt read, fun last => ?_⟩
  rw [((wired.nodes id node read).exit last).1, inner] at holds
  cases holds

end Graph

end SeaOfNodes
