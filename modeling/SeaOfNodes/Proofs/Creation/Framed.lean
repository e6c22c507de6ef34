import SeaOfNodes.Proofs.Creation.Path

/-! What an inline creation does to the nodes that were there before. -/

namespace SeaOfNodes

open SeaOfNodes.Graph

namespace Graph

section

variable {old new : Graph} {made : List NodeId} (added : Adds old new made)
  (stays : ∀ user ∈ made, ∃ op, new.Performs user op ∧ op.stays) (id : NodeId)

include added stays

theorem adds_bypasses (user : NodeId) : new.bypasses id user = old.bypasses id user := by
  cases before : old.bypasses id user with
  | false => exact adds_unbypassed added stays before
  | true =>
    obtain ⟨node, live, success, member⟩ := (bypasses_iff old id user).mp before
    obtain ⟨type, read⟩ := added.grown.kept user node live.1
    exact (bypasses_iff new id user).mpr ⟨_, ⟨read, live.2⟩, success, member⟩

-- The nodes that are added take no part in what becomes of an edge.
theorem diverted_adds {last : Graph} {value effect control : NodeId} (diverted : Diverted new id value effect control last)
    {user : NodeId} {node : Node} (read : old.node? user = some node) (unbypassed : old.bypasses id user = false) :
    ∃ next, last.node? user = some next ∧ next.op = node.op ∧ next.dead = node.dead ∧
      next.inputs = node.inputs.mapIdx (old.diverted id value effect control node) := by
  obtain ⟨type, there⟩ := added.grown.kept user node read
  obtain ⟨next, after, op, dead, inputs⟩ := diverted.kept user _ there (adds_bypasses added stays id user ▸ unbypassed)
  refine ⟨next, after, op, dead, inputs.trans ?_⟩
  congr 1
  funext index input
  simp only [Graph.diverted, adds_bypasses added stays id]

end

theorem control_input_kept {old new : Graph} {id control : NodeId} {node : Node} {type : ValueType} (read : old.node? id = some node)
    (kept : new.node? id = some { node with type := type }) (led : new.controlInput id = .ok control) :
    old.controlInput id = .ok control := by
  simp only [controlInput, bind_eq_ok, layout_eq_ok, require_eq_ok, input_eq_ok] at led ⊢
  obtain ⟨_, ⟨again, found, fits, rfl⟩, _, some, other, there, edge⟩ := led
  cases kept.symm.trans found
  cases kept.symm.trans there
  exact ⟨_, ⟨node, read, fits, rfl⟩, (), some, node, read, edge⟩

end Graph

structure EndsRegion (old new : Graph) (ends : NodeId) : Prop where
  op : new.op ends = .ok .finishRegion
  object : ∃ object generation, old.size ≤ object ∧ new.input ends 0 = .ok object ∧ new.op object = .ok (.allocate generation)

theorem creation_reroutes_users (c : CreationContext) (id : NodeId) (s t : Workspace) (outcome : Reduction)
    (mirrored : s.graph.Mirrored) (run : c.reduce id s = .ok outcome t) (rewritten : outcome ≠ .unchanged) :
    ∃ control ends, s.graph.controlInput id = .ok control ∧
      (outcome = .changed id ∧ ends = id ∨ outcome = .replaced ends ∧ s.graph.size ≤ ends) ∧ EndsRegion s.graph t.graph ends ∧
      ∀ user node, s.graph.node? user = some node → user ≠ id → s.graph.bypasses id user = false →
        ∃ next, t.graph.node? user = some next ∧ next.op = node.op ∧ next.dead = node.dead ∧
          next.inputs = node.inputs.mapIdx (s.graph.diverted id ends ends control node) := by
  obtain ⟨plan, request, creation, _, tidy, created, asked, executed⟩ := reduce_executes run rewritten
  obtain ⟨progress, a, v, mades, nodes, found, whole, done, laid, ends⟩ := execute_lays False.elim executed
  obtain ⟨type, there⟩ := whole.grown.kept id creation created
  have stays := made_stays request _ there asked plan tidy mades progress nodes a.effect done laid
  have self := creation_unbypassed there asked
  have controls : 0 < creation.op.layout.controls := by
    rw [(creation_layout creation.op (by rw [asked]; rfl)).2.2.1]
    exact one_pos
  have late : s.graph.size ≤ nodes.object := (whole.inside nodes.object (by simp [RegionNodes.chain])).1
  cases ends with
  | become graph relaxed finished =>
    have rewired := replace_with_value_rewired self self relaxed
    have closed := finish_as_closes found finished
    have settled := settled_elsewhere (rewired_settled _ rewired) closed.size closed.elsewhere
    obtain ⟨control, origin, diverted⟩ :=
      replace_with_value_diverted self self (whole.grown.mirrored mirrored) self there controls relaxed
    have led := (origin.resolve_left (by rintro ⟨⟩)).2
    obtain ⟨former, kept, _⟩ := rewired.kept id _ there (by rw [asked]; rintro ⟨⟩)
    obtain ⟨final, read, closes, inputs⟩ := closed.here former kept
    refine ⟨control, id, control_input_kept created there led, .inl ⟨rfl, rfl⟩, ?_, ?_⟩
    · obtain ⟨performs, edge, _⟩ := finish_region_closes read closes inputs
      obtain ⟨_, object, _⟩ := region_lands settled request _ there asked laid
      exact ⟨performs, nodes.object, _, late, edge, object⟩
    · intro user node held apart unbypassed
      obtain ⟨next, after, op, dead, moved⟩ := diverted_adds whole stays id diverted held unbypassed
      obtain ⟨type, last⟩ := closed.elsewhere user apart next after
      exact ⟨_, last, op, dead, moved⟩
  | replace value w finished replaced ending =>
    obtain ⟨last, has⟩ := finish_adds found finished
    have all := adds_trans whole last
    have done := actions_at_extends last.grown done
    have laid := region_at_extends last.grown laid
    obtain ⟨type, there⟩ := all.grown.kept id creation created
    have closing := w.graph.has_performs _ has
    obtain ⟨_, unbypassed⟩ := stays_apart request _ there asked closing rfl
    have settled := rewired_settled _ (replace_with_value_rewired unbypassed unbypassed replaced)
    have stays := made_stays request _ there asked plan tidy mades progress nodes a.effect done laid
    obtain ⟨_, origin, diverted⟩ := replace_with_value_diverted unbypassed unbypassed (all.grown.mirrored mirrored)
      (creation_unbypassed there asked) there controls replaced
    cases origin.resolve_right (by rintro ⟨⟨⟩, _⟩)
    refine ⟨plan.control, value, tidy.control.resolve_left (by rw [ending]; rintro ⟨⟩),
      .inr ⟨rfl, (all.inside value (by simp)).1⟩, ?_, fun user node held _ => ?_⟩
    · obtain ⟨performs, edge, _⟩ := region_closes settled request _ there asked laid has
      obtain ⟨_, object, _⟩ := region_lands settled request _ there asked laid
      exact ⟨performs, nodes.object, _, late, edge, object⟩
    · exact diverted_adds all (List.forall_mem_append.mpr ⟨stays, List.forall_mem_singleton.mpr ⟨_, closing, rfl⟩⟩) id diverted held

def deadUsers : List Edit :=
  [.constant (.constant (.heap Root.undefined)), .addNode (.create .iterResult) [2, 2, 2, 0, 0] none,
   .addNode (.control (.merge 1)) [0] none, .kill 4, .appendInput 4 3,
   .addNode (.control .ifSuccess) [0] none, .kill 5, .appendInput 5 3, .addNode (.control (.merge 1)) [5] none,
   .addNode (.control .ifSuccess) [3] none, .addNode (.control (.ret 1)) [2, 3, 3, 7] none]

theorem dead_users_rerouted : ∃ t, CreationContext.initial.reduce 3 (.recording (.built deadUsers)) = .ok (.changed 3) t ∧
    t.graph.inputsOf 8 = [2, 3, 3, 0] ∧
    ∃ control ends, (Graph.built deadUsers).controlInput 3 = .ok control ∧
      (Reduction.changed 3 = .changed 3 ∧ ends = 3 ∨ Reduction.changed 3 = .replaced ends ∧ (Graph.built deadUsers).size ≤ ends) ∧
      EndsRegion (.built deadUsers) t.graph ends ∧
      ∀ user node, (Graph.built deadUsers).node? user = some node → user ≠ 3 → (Graph.built deadUsers).bypasses 3 user = false →
        ∃ next, t.graph.node? user = some next ∧ next.op = node.op ∧ next.dead = node.dead ∧
          next.inputs = node.inputs.mapIdx ((Graph.built deadUsers).diverted 3 ends ends control node) := by
  obtain ⟨outcome, t, run, found⟩ := reduced_check .initial 3 (.recording (.built deadUsers))
    (fun outcome t => outcome = .changed 3 && t.graph.inputsOf 8 = [2, 3, 3, 0]) (by decide +kernel)
  rw [Bool.and_eq_true, decide_eq_true_eq, decide_eq_true_eq] at found
  rw [found.1] at run
  exact ⟨t, run, found.2, creation_reroutes_users .initial 3 (.recording (.built deadUsers)) t (.changed 3) (built_mirrored deadUsers) run (by rintro ⟨⟩)⟩

theorem dead_users_keep_edges :
    (Graph.built deadUsers).controlInput 3 = .ok 0 ∧ (Graph.built deadUsers).edgeKind 4 0 = .ok .control ∧
    (Graph.built deadUsers).op 5 = .ok (.control .ifSuccess) ∧ (Graph.built deadUsers).inputsOf 5 = [3] ∧
    ∃ t, CreationContext.initial.reduce 3 (.recording (.built deadUsers)) = .ok (.changed 3) t ∧
      (Graph.built deadUsers).inputsOf 4 = [3] ∧ t.graph.inputsOf 4 = [3] ∧
      (Graph.built deadUsers).inputsOf 6 = [5] ∧ t.graph.inputsOf 6 = [5] := by
  refine ⟨by decide +kernel, by decide +kernel, by decide +kernel, by decide +kernel, ?_⟩
  obtain ⟨outcome, t, run, found⟩ := reduced_check .initial 3 (.recording (.built deadUsers))
    (fun outcome t => outcome = .changed 3 && (t.graph.inputsOf 4 = [3] && t.graph.inputsOf 6 = [5])) (by decide +kernel)
  rw [Bool.and_eq_true, Bool.and_eq_true, decide_eq_true_eq, decide_eq_true_eq, decide_eq_true_eq] at found
  exact ⟨t, found.1 ▸ run, by decide +kernel, found.2.1, by decide +kernel, found.2.2⟩

end SeaOfNodes
