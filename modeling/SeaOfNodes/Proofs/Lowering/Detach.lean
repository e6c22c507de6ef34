import SeaOfNodes.Proofs.Lowering.Lowerable

/-! A creation whose uses have been redirected can be turned into its result or removed. -/

namespace SeaOfNodes.Graph

open List

variable {user input : NodeId} {next : Node}

def UsedApart (graph : Graph) (skip id : NodeId) : Prop :=
  ∃ user node, user ≠ skip ∧ graph.Live user node ∧ id ∈ controlInputs node

structure Detached (rank : NodeId → Nat) (graph : Graph) (id : NodeId) : Prop where
  mirrored : graph.Mirrored
  entry : id ≠ start ∧ ∃ node, graph.Live start node ∧ node.op = .control .start
  nodes : ∀ other node, graph.Live other node → other ≠ id → Ready rank graph (graph.UsedApart id) other node

structure Creates (graph : Graph) (id control : NodeId) (node : Node) : Prop where
  live : graph.Live id node
  creates : node.op.isCreation = true
  control : node.inputs[node.op.layout.firstControl]? = some control

section

variable {rank : NodeId → Nat} {graph : Graph} {id control : NodeId} {node : Node}

theorem success_inputs (lowerable : Lowerable rank graph) (bypassed : graph.bypasses id user) :
    ∃ next, graph.Live user next ∧ next.op = .control .ifSuccess ∧ next.inputs = [id] ∧ rank id < rank user := by
  obtain ⟨next, live, success, member⟩ := (bypasses_iff graph id user).mp bypassed
  have ready := lowerable.nodes user next live
  have counted := ready.counted
  rw [success] at counted
  obtain ⟨only, listed⟩ := length_eq_one_iff.mp counted
  rw [listed, mem_singleton] at member
  subst member
  refine ⟨next, live, success, listed, ready.ranked (by simp [Operator.isTracked, success]) id ?_⟩
  rw [controlInputs, success, listed]
  exact mem_singleton_self id

-- A success projection reads nothing but what it projects.
theorem reader_unbypassed (lowerable : Lowerable rank graph) (live : graph.Live user next) (member : input ∈ controlInputs next)
    (apart : input ≠ id) : graph.bypasses id user = false := by
  rw [Bool.eq_false_iff]
  intro gone
  obtain ⟨again, liveAgain, _, inputs, _⟩ := success_inputs lowerable gone
  obtain rfl := live_unique graph live liveAgain
  have only := mem_of_mem_drop member
  rw [inputs, mem_singleton] at only
  exact apart only

variable (lowerable : Lowerable rank graph) (here : Creates graph id control node)

include lowerable here

theorem creates_rank : rank control < rank id :=
  (lowerable.nodes id node here.live).ranked (tracked_of_creation here.creates) control
    (mem_control_inputs.mpr ⟨_, le_rfl, here.control⟩)

theorem creates_only (member : input ∈ controlInputs node) : input = control := by
  obtain ⟨index, late, read⟩ := mem_control_inputs.mp member
  have counted := (lowerable.nodes id node here.live).counted
  have inside := (List.getElem?_eq_some_iff.mp read).1
  have same : index = node.op.layout.firstControl := by
    rw [counted, InputLayout.total, (creation_layout node.op here.creates).2.2.1] at inside
    omega
  rw [same, here.control] at read
  exact (Option.some.inj read).symm

theorem creates_unbypassed : graph.bypasses id id = false ∧ graph.bypasses id control = false := by
  have ranks := creates_rank lowerable here
  constructor
  · rw [Bool.eq_false_iff]
    intro bypassed
    obtain ⟨_, _, _, _, above⟩ := success_inputs lowerable bypassed
    exact lt_irrefl _ above
  · rw [Bool.eq_false_iff]
    intro bypassed
    obtain ⟨_, _, _, _, above⟩ := success_inputs lowerable bypassed
    exact lt_irrefl _ (ranks.trans above)

theorem creates_redirectable {value effect : NodeId} (valueKept : graph.bypasses id value = false)
    (effectKept : graph.bypasses id effect = false) : Redirectable graph id value effect control where
  mirrored := lowerable.mirrored
  single user next live success := by
    have counted := (lowerable.nodes user next live).counted
    rw [success] at counted
    exact counted
  self := (creates_unbypassed lowerable here).1
  value := valueKept
  effect := effectKept
  control := (creates_unbypassed lowerable here).2

theorem creates_ne_start : id ≠ start := by
  rintro rfl
  obtain ⟨first, live, begins⟩ := lowerable.entry
  have creates := here.creates
  rw [live_unique graph here.live live, begins] at creates
  cases creates

theorem creates_ne_stop : id ≠ stop := by
  intro same
  have untracked := (lowerable.nodes id node here.live).exit same
  rw [tracked_of_creation here.creates] at untracked
  cases untracked

end

section

variable {other : NodeId} {rank : NodeId → Nat} {old new : Graph} {id value effect control : NodeId} {node : Node}
  (redirected : Redirected old id value effect control new)

include redirected in
-- A control input that is neither the creation nor one of its projections stays; those become the creation's own control.
theorem control_input_rerouted (live : old.Live user next) (stays : old.bypasses id user = false)
    (member : input ∈ controlInputs next) :
    ∃ after, new.Live user after ∧
      (if old.bypasses id input ∨ input = id then control else input) ∈ controlInputs after := by
  obtain ⟨after, alive, op, inputs⟩ := redirected.kept user next live stays
  obtain ⟨index, late, read⟩ := mem_control_inputs.mp member
  refine ⟨after, alive, mem_control_inputs.mpr ⟨index, op ▸ late, ?_⟩⟩
  rw [inputs, getElem?_mapIdx, read, Option.map_some, rerouted, edge_kind_control late]
  by_cases gone : old.bypasses id input
  · simp [gone]
  · by_cases same : input = id
    · simp [same, EdgeKind.target]
    · simp [gone, same]

include redirected in
theorem redirected_live (other : NodeId) (lives : ∃ definition, old.Live other definition)
    (stays : old.bypasses id other = false) : ∃ later, new.Live other later := by
  obtain ⟨definition, live⟩ := lives
  obtain ⟨later, after, _⟩ := redirected.kept other definition live stays
  exact ⟨later, after⟩

variable (lowerable : Lowerable rank old) (here : Creates old id control node)

include redirected lowerable here

-- The control of the creation passes to what used the creation as its control, past a success projection.
theorem control_handed_on : new.UsedApart id control := by
  have ready := lowerable.nodes id node here.live
  have selfKept := (creates_unbypassed lowerable here).1
  obtain ⟨user, next, live, member⟩ := ready.leads (creates_ne_stop lowerable here) (creation_layout node.op here.creates).2.2.2
  have apart : user ≠ id := by
    rintro rfl
    obtain rfl := live_unique old here.live live
    exact lt_irrefl _ (ready.ranked (tracked_of_creation here.creates) user member)
  cases bypassed : old.bypasses id user with
  | false =>
    obtain ⟨after, alive, found⟩ := control_input_rerouted redirected live bypassed member
    rw [if_pos (.inr rfl)] at found
    exact ⟨user, after, apart, alive, found⟩
  | true =>
    obtain ⟨again, liveAgain, success, inputs, above⟩ := success_inputs lowerable bypassed
    have projection := lowerable.nodes user again liveAgain
    have passed : user ≠ stop := by
      intro same
      have untracked := projection.exit same
      rw [success] at untracked
      cases untracked
    obtain ⟨reader, other, liveReader, reads⟩ := projection.leads passed (by rw [success]; rfl)
    have apartReader : reader ≠ id := by
      rintro rfl
      obtain rfl := live_unique old here.live liveReader
      exact Nat.lt_asymm above (ready.ranked (tracked_of_creation here.creates) user reads)
    obtain ⟨after, alive, found⟩ :=
      control_input_rerouted redirected liveReader (reader_unbypassed lowerable liveReader reads apart) reads
    rw [if_pos (.inl bypassed)] at found
    exact ⟨reader, after, apartReader, alive, found⟩

theorem control_still_used (apart : other ≠ id) (stays : old.bypasses id other = false) (used : old.ControlUsed other) :
    new.UsedApart id other := by
  obtain ⟨user, next, live, member⟩ := used
  by_cases same : user = id
  · subst same
    obtain rfl := live_unique old here.live live
    rw [creates_only lowerable here member]
    exact control_handed_on redirected lowerable here
  · obtain ⟨after, alive, found⟩ :=
      control_input_rerouted redirected live (reader_unbypassed lowerable live member apart) member
    rw [if_neg (by simp [apart, stays])] at found
    exact ⟨user, after, same, alive, found⟩

theorem redirected_detached (valueLives : ∃ definition, old.Live value definition)
    (effectLives : ∃ definition, old.Live effect definition) (valueKept : old.bypasses id value = false)
    (effectKept : old.bypasses id effect = false) : Detached rank new id := by
  have ranks := creates_rank lowerable here
  have alive := redirected_live redirected
  have controlKept := (creates_unbypassed lowerable here).2
  have controlLives := (lowerable.nodes id node here.live).inputs control (mem_of_getElem? here.control)
  refine ⟨redirected.mirrored, ⟨creates_ne_start lowerable here, ?_⟩, ?_⟩
  · obtain ⟨first, live, begins⟩ := lowerable.entry
    have stays : old.bypasses id start = false := by
      rw [Bool.eq_false_iff]
      intro gone
      obtain ⟨again, liveAgain, success, _⟩ := success_inputs lowerable gone
      rw [← live_unique old live liveAgain, begins] at success
      cases success
    obtain ⟨later, after, op, _⟩ := redirected.kept start first live stays
    exact ⟨later, after, op.trans begins⟩
  · intro other after live apart
    obtain ⟨⟨before, known⟩, stays⟩ := redirected.only other after live
    obtain ⟨again, liveAgain, op, inputs⟩ := redirected.kept other before known stays
    obtain rfl := live_unique new live liveAgain
    have ready := lowerable.nodes other before known
    refine ⟨op ▸ ready.fits, ?_, ?_, ?_, fun begins => ready.entry (op ▸ begins), fun last => op ▸ ready.exit last, ?_, ?_⟩
    · rw [inputs, op, length_mapIdx]
      exact ready.counted
    · intro input member
      rw [inputs, mem_mapIdx] at member
      obtain ⟨index, inside, rfl⟩ := member
      rw [rerouted]
      split
      · exact alive control controlLives controlKept
      · rename_i kept
        split
        · cases before.op.layout.edgeKind index with
          | control => exact alive control controlLives controlKept
          | effect => exact alive effect effectLives effectKept
          | value | context | frameState => exact alive value valueLives valueKept
        · exact alive _ (ready.inputs _ (getElem_mem inside)) (Bool.eq_false_iff.mpr kept)
    · intro passed control
      exact control_still_used redirected lowerable here apart stays (ready.leads passed (op ▸ control))
    · intro tracked input member
      rw [op] at tracked
      obtain ⟨index, late, read⟩ := mem_control_inputs.mp member
      rw [op] at late
      rw [inputs, getElem?_mapIdx] at read
      obtain ⟨original, found, rfl⟩ := Option.map_eq_some_iff.mp read
      have order := ready.ranked tracked original (mem_control_inputs.mpr ⟨index, late, found⟩)
      rw [rerouted, edge_kind_control late]
      split
      · rename_i gone
        obtain ⟨_, _, _, _, above⟩ := success_inputs lowerable gone
        exact lt_trans ranks (above.trans order)
      · split
        · rename_i same
          exact lt_trans ranks (same ▸ order)
        · exact order
    · intro creates
      rw [inputs, length_mapIdx]
      exact ready.width (op ▸ creates)

-- Where the targets are other nodes, nothing is left that uses the creation.
theorem redirected_unused (valueApart : value ≠ id) (effectApart : effect ≠ id) {after : Node} (live : new.Live other after) :
    id ∉ after.inputs := by
  obtain ⟨⟨before, known⟩, stays⟩ := redirected.only other after live
  obtain ⟨again, liveAgain, _, inputs⟩ := redirected.kept other before known stays
  obtain rfl := live_unique new live liveAgain
  have controlApart : control ≠ id := by
    rintro rfl
    exact lt_irrefl _ (creates_rank lowerable here)
  rw [inputs, mem_mapIdx]
  rintro ⟨index, inside, same⟩
  rw [rerouted] at same
  split at same
  · exact controlApart same
  split at same
  · cases kind : before.op.layout.edgeKind index <;> rw [kind] at same
    · exact valueApart same
    · exact valueApart same
    · exact valueApart same
    · exact effectApart same
    · exact controlApart same
  · rename_i different
    exact different same

end

section

variable {rank : NodeId → Nat} {graph later : Graph} {id : NodeId} (detached : Detached rank graph id)

include detached

-- Types take no part.
theorem detached_alike {new : Graph} (mirrored : new.Mirrored) (forward : Kept graph new) (backward : Kept new graph) :
    Detached rank new id := by
  refine ⟨mirrored, ⟨detached.entry.1, ?_⟩, ?_⟩
  · obtain ⟨_, first, alive, begins⟩ := detached.entry
    obtain ⟨next, after, op, _⟩ := forward start first alive
    exact ⟨next, after, op.trans begins⟩
  intro other after alive apart
  obtain ⟨before, known, op, inputs⟩ := backward other after alive
  refine ready_transport after (detached.nodes other before known apart) op.symm inputs.symm ?_ ?_
  · intro input definition live
    obtain ⟨next, following, _⟩ := forward input definition live
    exact ⟨next, following⟩
  · rintro ⟨user, node, elsewhere, live, member⟩
    obtain ⟨next, following, sameOp, sameInputs⟩ := forward user node live
    refine ⟨user, next, elsewhere, following, ?_⟩
    rw [controlInputs, sameOp, sameInputs]
    exact member

theorem detached_finish (edited : Edited graph later id next) (live : next.dead = false) (plain : next.op.isControl = false)
    (fits : next.op.fits) (counted : next.inputs.length = next.op.layout.total)
    (inputs : ∀ input ∈ next.inputs, ∃ definition, graph.Live input definition) : Lowerable rank later := by
  have lives := edited_lives edited live
  refine ⟨edited.mirrored detached.mirrored, ?_, ?_⟩
  · obtain ⟨apart, first, alive, begins⟩ := detached.entry
    exact ⟨first, (live_elsewhere edited (Ne.symm apart)).mpr alive, begins⟩
  intro other after alive
  by_cases same : other = id
  · subst same
    obtain rfl : next = after := Option.some.inj (edited.here.symm.trans alive.1)
    refine ready_plain plain fits counted fun input member => ?_
    obtain ⟨definition, known⟩ := inputs input member
    exact lives input definition known
  · have before := (live_elsewhere edited same).mp alive
    refine ready_transport after (detached.nodes other after before same) rfl rfl lives ?_
    rintro ⟨user, node, apart, known, member⟩
    exact ⟨user, node, (live_elsewhere edited apart).mpr known, member⟩

-- Where nothing reads the node, the others only need to stay as they are.
theorem detached_ready (unused : ∀ other node, graph.Live other node → other ≠ id → id ∉ node.inputs)
    (alike : ∀ other node, other ≠ id → (later.Live other node ↔ graph.Live other node)) {other : NodeId} {node : Node}
    (alive : later.Live other node) (apart : other ≠ id) : Ready rank later (later.UsedApart id) other node := by
  have before := (alike other node apart).mp alive
  have ready := detached.nodes other node before apart
  refine ⟨ready.fits, ready.counted, ?_, ?_, ready.entry, ready.exit, ready.ranked, ready.width⟩
  · intro input member
    obtain ⟨definition, known⟩ := ready.inputs input member
    refine ⟨definition, (alike input definition ?_).mpr known⟩
    rintro rfl
    exact unused other node before apart member
  · intro passed control
    obtain ⟨user, reader, elsewhere, known, reads⟩ := ready.leads passed control
    exact ⟨user, reader, elsewhere, (alike user reader elsewhere).mpr known, reads⟩

theorem detached_kill {killed : Node} (edited : Edited graph later id killed) (dead : killed.dead)
    (unused : ∀ other node, graph.Live other node → other ≠ id → id ∉ node.inputs) : Lowerable rank later := by
  refine ⟨edited.mirrored detached.mirrored, ?_, ?_⟩
  · obtain ⟨apart, first, alive, begins⟩ := detached.entry
    exact ⟨first, (live_elsewhere edited (Ne.symm apart)).mpr alive, begins⟩
  intro other after alive
  have apart : other ≠ id := by
    rintro rfl
    have live := alive.2
    rw [← Option.some.inj (edited.here.symm.trans alive.1), dead] at live
    cases live
  refine ready_transport after (detached_ready detached unused (fun _ _ => live_elsewhere edited) alive apart) rfl rfl
    (fun _ definition known => ⟨definition, known⟩) ?_
  rintro ⟨user, node, _, known, member⟩
  exact ⟨user, node, known, member⟩

theorem detached_replace_all_uses (new : NodeId)
    (unused : ∀ other node, graph.Live other node → other ≠ id → id ∉ node.inputs) :
    Detached rank (graph.replaceAllUses id new) id ∧
      ∀ other node, other ≠ id → ((graph.replaceAllUses id new).Live other node ↔ graph.Live other node) := by
  have rewritten := graph.replace_all_uses_node detached.mirrored id new
  have unchanged : ∀ node : Node, id ∉ node.inputs →
      { node with inputs := node.inputs.map fun input => if input = id then new else input } = node := by
    intro node absent
    have same : (node.inputs.map fun input => if input = id then new else input) = node.inputs := by
      conv_rhs => rw [← map_id node.inputs]
      refine map_congr_left fun input member => if_neg ?_
      rintro rfl
      exact absent member
    rw [same]
  have alike : ∀ other node, other ≠ id → ((graph.replaceAllUses id new).Live other node ↔ graph.Live other node) := by
    intro other node apart
    constructor
    · rintro ⟨read, live⟩
      rw [rewritten other] at read
      obtain ⟨before, found, rfl⟩ := Option.map_eq_some_iff.mp read
      rw [unchanged before (unused other before ⟨found, live⟩ apart)]
      exact ⟨found, live⟩
    · intro alive
      refine ⟨?_, alive.2⟩
      rw [rewritten other, alive.1, Option.map_some, unchanged node (unused other node alive apart)]
  refine ⟨⟨graph.replace_all_uses_mirrored detached.mirrored id new, ⟨detached.entry.1, ?_⟩, ?_⟩, alike⟩
  · obtain ⟨apart, first, alive, begins⟩ := detached.entry
    exact ⟨first, (alike start first (Ne.symm apart)).mpr alive, begins⟩
  · exact fun other node => detached_ready detached unused alike

end

end SeaOfNodes.Graph
