import SeaOfNodes.Proofs.Graph.Redirect

/-! What a graph keeps while its creations are lowered, and what an expansion adds to it. -/

namespace SeaOfNodes

theorem creation_layout (op : Operator) (creates : op.isCreation) :
    op.layout.context ∧ op.layout.effects = 1 ∧ op.layout.controls = 1 ∧ op.isControl := by
  cases op with
  | create request => cases request <;> exact ⟨rfl, rfl, rfl, rfl⟩
  | _ => cases creates

def Operator.isTracked (op : Operator) : Bool := op.isCreation || op = .control .ifSuccess

theorem tracked_control {op : Operator} (tracked : op.isTracked) : op.isControl := by
  simp only [Operator.isTracked, Bool.or_eq_true, decide_eq_true_eq] at tracked
  rcases tracked with creates | rfl
  · exact (creation_layout op creates).2.2.2
  · rfl

theorem tracked_of_creation {op : Operator} (creates : op.isCreation) : op.isTracked := by
  simp [Operator.isTracked, creates]

namespace Graph

variable {node next : Node} {old new : Graph}

-- `rank` orders creations and success projections after the control they come from, so that no redirection runs
-- in a circle; `used` says which controls lead on.
structure Ready (rank : NodeId → Nat) (graph : Graph) (used : NodeId → Prop) (id : NodeId) (node : Node) : Prop where
  fits : node.op.fits = true
  counted : node.inputs.length = node.op.layout.total
  inputs : ∀ input ∈ node.inputs, ∃ definition, graph.Live input definition
  leads : id ≠ stop → node.op.isControl = true → used id
  entry : node.op = .control .start → id = start
  exit : id = stop → node.op.isTracked = false
  ranked : node.op.isTracked = true → ∀ input ∈ controlInputs node, rank input < rank id
  width : node.op.isCreation = true → node.inputs.length ≠ UInt32.size

structure Lowerable (rank : NodeId → Nat) (graph : Graph) : Prop where
  mirrored : graph.Mirrored
  entry : ∃ node, graph.Live start node ∧ node.op = .control .start
  nodes : ∀ id node, graph.Live id node → Ready rank graph graph.ControlUsed id node

section

variable {rank : NodeId → Nat} {graph new : Graph} {used leading : NodeId → Prop} {id : NodeId}

theorem ready_transport (next : Node) (ready : Ready rank graph used id node) (op : next.op = node.op)
    (inputs : next.inputs = node.inputs) (lives : ∀ input definition, graph.Live input definition → ∃ later, new.Live input later)
    (leads : used id → leading id) : Ready rank new leading id next where
  fits := op ▸ ready.fits
  counted := by rw [op, inputs]; exact ready.counted
  inputs input member := by
    obtain ⟨definition, live⟩ := ready.inputs input (inputs ▸ member)
    exact lives input definition live
  leads apart control := leads (ready.leads apart (op ▸ control))
  entry begins := ready.entry (op ▸ begins)
  exit last := op ▸ ready.exit last
  ranked tracked input member := by
    rw [controlInputs, op, inputs] at member
    exact ready.ranked (op ▸ tracked) input member
  width creates := by rw [inputs]; exact ready.width (op ▸ creates)

-- A node that produces no control only needs its inputs.
theorem ready_plain (plain : node.op.isControl = false) (fits : node.op.fits)
    (counted : node.inputs.length = node.op.layout.total)
    (inputs : ∀ input ∈ node.inputs, ∃ definition, graph.Live input definition) : Ready rank graph used id node := by
  have untracked : node.op.isTracked = false := by
    rw [Bool.eq_false_iff]
    intro tracked
    rw [tracked_control tracked] at plain
    cases plain
  refine ⟨fits, counted, inputs, ?_, ?_, fun _ => untracked, ?_, ?_⟩
  · intro _ control
    rw [plain] at control
    cases control
  · intro begins
    rw [begins] at plain
    cases plain
  · intro tracked
    rw [untracked] at tracked
    cases tracked
  · intro creates
    rw [tracked_of_creation creates] at untracked
    cases untracked

end

def Kept (old new : Graph) : Prop :=
  ∀ id node, old.Live id node → ∃ next, new.Live id next ∧ next.op = node.op ∧ next.inputs = node.inputs

theorem control_used_kept (kept : Kept old new) (id : NodeId) (used : old.ControlUsed id) : new.ControlUsed id := by
  obtain ⟨user, node, live, member⟩ := used
  obtain ⟨next, after, op, inputs⟩ := kept user node live
  refine ⟨user, next, after, ?_⟩
  rw [controlInputs, op, inputs]
  exact member

-- An expansion adds nodes that produce no control, and changes nothing that is there but types.
structure Expanded (rank : NodeId → Nat) (old new : Graph) : Prop where
  sound : Lowerable rank new
  kept : Kept old new
  fresh : ∀ id node, new.Live id node → node.op.isControl = true →
    ∃ before, old.Live id before ∧ before.op = node.op ∧ before.inputs = node.inputs

section

variable {id : NodeId} {rank : NodeId → Nat} {old new : Graph}

theorem expanded_trans {last : Graph} (first : Expanded rank old new) (second : Expanded rank new last) :
    Expanded rank old last := by
  refine ⟨second.sound, ?_, ?_⟩
  · intro id node live
    obtain ⟨next, after, op, inputs⟩ := first.kept id node live
    obtain ⟨final, finally_, opAgain, inputsAgain⟩ := second.kept id next after
    exact ⟨final, finally_, opAgain.trans op, inputsAgain.trans inputs⟩
  · intro id node live control
    obtain ⟨middle, between, op, inputs⟩ := second.fresh id node live control
    obtain ⟨before, first, opAgain, inputsAgain⟩ := first.fresh id middle between (op ▸ control)
    exact ⟨before, first, opAgain.trans op, inputsAgain.trans inputs⟩

theorem expanded_live (expanded : Expanded rank old new) (lives : ∃ node, old.Live id node) : ∃ node, new.Live id node := by
  obtain ⟨node, live⟩ := lives
  obtain ⟨next, after, _⟩ := expanded.kept id node live
  exact ⟨next, after⟩

theorem live_elsewhere (edited : Edited old new id next) (apart : other ≠ id) : new.Live other node ↔ old.Live other node := by
  rw [Live, Live, edited.elsewhere other apart]

theorem edited_lives (edited : Edited old new id next) (live : next.dead = false) (other : NodeId) (definition : Node)
    (alive : old.Live other definition) : ∃ after, new.Live other after := by
  by_cases same : other = id
  · exact ⟨next, same ▸ edited.here, live⟩
  · exact ⟨definition, (live_elsewhere edited same).mpr alive⟩

theorem retyped_kept (read : old.node? id = some node) (edited : Edited old new id next) (op : next.op = node.op)
    (inputs : next.inputs = node.inputs) (dead : next.dead = node.dead) : Kept old new ∧ Kept new old := by
  constructor
  · intro other before alive
    by_cases same : other = id
    · subst same
      obtain rfl : node = before := Option.some.inj (read.symm.trans alive.1)
      exact ⟨next, ⟨edited.here, dead.trans alive.2⟩, op, inputs⟩
    · exact ⟨before, (live_elsewhere edited same).mpr alive, rfl, rfl⟩
  · intro other after alive
    by_cases same : other = id
    · subst same
      obtain rfl : next = after := Option.some.inj (edited.here.symm.trans alive.1)
      exact ⟨node, ⟨read, dead.symm.trans alive.2⟩, op.symm, inputs.symm⟩
    · exact ⟨after, (live_elsewhere edited same).mp alive, rfl, rfl⟩

end

def pending (graph : Graph) (id : NodeId) : Bool := (graph.node? id).any fun node => !node.dead && node.op.isCreation

theorem pending_iff (graph : Graph) (id : NodeId) : graph.pending id ↔ ∃ node, graph.Live id node ∧ node.op.isCreation := by
  rw [pending]
  cases read : graph.node? id with
  | none | some node => simp [Live, read]

theorem pending_kept (kept : Kept old new) {id : NodeId} (waits : old.pending id) : new.pending id := by
  obtain ⟨node, live, creates⟩ := (pending_iff old id).mp waits
  obtain ⟨next, after, op, _⟩ := kept id node live
  exact (pending_iff new id).mpr ⟨next, after, op ▸ creates⟩

theorem pending_expanded {rank : NodeId → Nat} (expanded : Expanded rank old new) (id : NodeId) :
    new.pending id ↔ old.pending id := by
  constructor
  · intro waits
    obtain ⟨node, live, creates⟩ := (pending_iff new id).mp waits
    obtain ⟨before, known, op, _⟩ := expanded.fresh id node live (creation_layout node.op creates).2.2.2
    exact (pending_iff old id).mpr ⟨before, known, op ▸ creates⟩
  · exact pending_kept expanded.kept

theorem pending_redirected {creation value effect control : NodeId}
    (redirected : Redirected old creation value effect control new) (id : NodeId) :
    new.pending id ↔ old.pending id := by
  constructor
  · intro waits
    obtain ⟨after, live, creates⟩ := (pending_iff new id).mp waits
    obtain ⟨⟨before, known⟩, stays⟩ := redirected.only id after live
    obtain ⟨again, liveAgain, op, _⟩ := redirected.kept id before known stays
    rw [live_unique new live liveAgain, op] at creates
    exact (pending_iff old id).mpr ⟨before, known, creates⟩
  · intro waits
    obtain ⟨before, live, creates⟩ := (pending_iff old id).mp waits
    have stays : old.bypasses creation id = false := by
      rw [Bool.eq_false_iff, Ne, bypasses_iff]
      rintro ⟨again, liveAgain, success, _⟩
      rw [live_unique old live liveAgain, success] at creates
      cases creates
    obtain ⟨after, alive, op, _⟩ := redirected.kept id before live stays
    exact (pending_iff new id).mpr ⟨after, alive, op ▸ creates⟩

theorem pending_edited {creation : NodeId} (edited : Edited old new creation next)
    (done : next.dead ∨ next.op.isCreation = false) (id : NodeId) :
    new.pending id ↔ old.pending id ∧ id ≠ creation := by
  by_cases same : id = creation
  · subst same
    have lowered : new.pending id = false := by
      rw [pending, edited.here]
      rcases done with dead | other
      · simp [dead]
      · simp [other]
    simp [lowered]
  · have unchanged : new.pending id = old.pending id := by rw [pending, pending, edited.elsewhere id same]
    simp [unchanged, same]

end Graph

end SeaOfNodes
