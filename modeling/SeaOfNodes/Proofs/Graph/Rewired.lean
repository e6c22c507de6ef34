import SeaOfNodes.Proofs.Graph.Redirect

/-! What a redirection of uses leaves alone, in any graph. -/

namespace SeaOfNodes.Graph

open List

variable {user value effect : NodeId} {node killed : Node} {graph later : Graph} {control : Option NodeId} {index : Nat}

theorem replace_all_uses_keeps (graph : Graph) (gone target : NodeId) (read : graph.node? user = some node) :
    ∃ inputs : List NodeId, (graph.replaceAllUses gone target).node? user = some { node with inputs := inputs } ∧
      (∀ (index : Nat) (input : NodeId), node.inputs[index]? = some input → input ≠ gone → inputs[index]? = some input) ∧
      ∀ index : Nat, node.inputs[index]? = some gone → inputs[index]? = some gone ∨ inputs[index]? = some target := by
  by_cases same : gone = target
  · rw [replaceAllUses, if_pos same]
    exact ⟨node.inputs, read, fun _ _ edge _ => edge, fun _ edge => .inl edge⟩
  rw [replace_all_uses_eq graph same, node_with_uses, move_edges_node, read]
  refine ⟨_, rfl, ?_, ?_⟩
  · intro index input edge apart
    rw [getElem?_mapIdx, edge, Option.map_some, if_neg]
    intro listed
    have points := ((graph.mem_use_edges gone user index).mp listed).2
    rw [graph.inputs_of_eq user node read, edge] at points
    exact apart (Option.some.inj points)
  · intro index edge
    rw [getElem?_mapIdx, edge, Option.map_some]
    split
    · exact .inr rfl
    · exact .inl rfl

-- All that is left after the end of a node was there before.
theorem bypassed_back {target : NodeId} (dead : killed.dead)
    (gone : Edited (graph.replaceAllUses user target) later user killed) {reader : NodeId} (after : later.Live reader node) :
    ∃ before, graph.Live reader before ∧ node.op = before.op := by
  have apart : reader ≠ user := by
    rintro rfl
    have alive := after.2
    rw [← Option.some.inj (gone.here.symm.trans after.1), dead] at alive
    cases alive
  have there := (gone.elsewhere reader apart).symm.trans after.1
  obtain ⟨before, read⟩ := graph.node_of_lt reader (by
    rw [← graph.replace_all_uses_size user target]
    exact node_lt _ there)
  obtain ⟨inputs, found, _⟩ := graph.replace_all_uses_keeps user target read
  cases found.symm.trans there
  exact ⟨before, ⟨read, after.2⟩, rfl⟩

inductive Redirects (value effect : NodeId) (graph : Graph) (user : NodeId) (index : Nat) (later : Graph) : Prop
  | rests (same : later = graph)
  | moves (node : Node) (source : NodeId) (read : graph.node? user = some node) (moved : Edited graph later user
        { node with inputs := node.inputs.set index ((node.op.layout.edgeKind index).target value effect source) })
  | bypasses (node killed : Node) (source : NodeId) (live : graph.Live user node) (success : node.op = .control .ifSuccess)
      (dead : killed.dead = true) (gone : Edited (graph.replaceAllUses user source) later user killed)

theorem redirect_edge_cases (run : redirectEdge value (some effect) control graph (user, index) = .ok later) :
    Redirects value effect graph user index later := by
  simp only [redirectEdge, bind_eq_ok, node_eq_ok] at run
  obtain ⟨node, read, run⟩ := run
  split at run
  · cases run
    exact .rests rfl
  rename_i alive
  have live : graph.Live user node := ⟨read, by simpa using alive⟩
  obtain ⟨kind, sorted, run⟩ := bind_eq_ok.mp run
  have sort := yields_ok _ _ (graph.edge_kind_yields index read) sorted
  have moves : ∀ source target, target = kind.target value effect source →
      graph.replaceInput user index target = .ok later → Redirects value effect graph user index later := by
    rintro source target rfl done
    have moved := yields_ok _ _ (graph.replace_input_yields user index _ node read) done
    rw [sort] at moved
    exact .moves node source read moved
  cases kind with
  | control =>
    cases control with
    | none =>
      cases run
      exact .rests rfl
    | some source =>
      dsimp only at run
      split at run
      · rename_i success
        obtain ⟨inputs, found, _⟩ := graph.replace_all_uses_keeps user source read
        have gone := yields_ok _ _ ((graph.replaceAllUses user source).kill_yields user _ found) run
        exact .bypasses node _ source live success rfl gone
      · exact moves source _ rfl run
  | effect | value | context | frameState => exact moves user _ rfl run

-- Without a control of its own, the redirection takes that of the node.
theorem replace_with_value_folds {old new : Graph} {id : NodeId}
    (run : old.replaceWithValue id value (some effect) control = .ok new) :
    ∃ source : Option NodeId, (∀ node, old.node? id = some node → 0 < node.op.layout.controls →
        ∃ target, source = some target ∧ (control = some target ∨ control = none ∧ old.controlInput id = .ok target)) ∧
      (old.useEdges id).foldlM (redirectEdge value (some effect) source) old = .ok new := by
  obtain ⟨layout, laid, rest⟩ := bind_eq_ok.mp run
  obtain ⟨_, given, rest⟩ := bind_eq_ok.mp rest
  cases given
  cases control with
  | some control => exact ⟨some control, fun _ _ _ => ⟨control, rfl, .inl rfl⟩, rest⟩
  | none =>
    obtain ⟨node, read, _, rfl⟩ := (old.layout_eq_ok id layout).mp laid
    dsimp only at rest
    split at rest
    · obtain ⟨source, found, run⟩ := bind_eq_ok.mp rest
      refine ⟨source, fun _ _ _ => ?_, run⟩
      cases input : old.controlInput id with
      | ok target =>
        rw [input] at found
        cases found
        exact ⟨target, rfl, .inr ⟨rfl, rfl⟩⟩
      | error fault =>
        rw [input] at found
        cases found
    · rename_i without
      refine ⟨none, fun other again some => ?_, rest⟩
      cases read.symm.trans again
      exact absurd some without

-- Nodes keep their operators, but for success projections that are bypassed.
structure Rewired (old : Graph) (id value effect : NodeId) (new : Graph) : Prop where
  size : new.size = old.size
  kept : ∀ user node, old.node? user = some node → node.op ≠ .control .ifSuccess →
    ∃ next, new.node? user = some next ∧ next.op = node.op ∧ next.dead = node.dead ∧
      ∀ index input, node.inputs[index]? = some input → old.bypasses id input = false →
        next.inputs[index]? = some input ∨ input = id ∧
          ∃ control, next.inputs[index]? = some ((node.op.layout.edgeKind index).target value effect control)
  only : ∀ user next, new.Live user next → ∃ node, old.Live user node ∧ next.op = node.op

section

variable {next : Node} {old new : Graph} {id value effect : NodeId}

theorem rewired_refl (graph : Graph) (id value effect : NodeId) : Rewired graph id value effect graph where
  size := rfl
  kept _ node read _ := ⟨node, read, rfl, rfl, fun _ _ edge _ => .inl edge⟩
  only _ next live := ⟨next, live, rfl⟩

variable (reached : Rewired old id value effect new)

include reached

-- The edge that changes led to the node before.
theorem rewired_moves (edge : (old.inputsOf user)[index]? = some id)
    (read : new.node? user = some next) {control : NodeId} (moved : Edited new later user
      { next with inputs := next.inputs.set index ((next.op.layout.edgeKind index).target value effect control) }) :
    Rewired old id value effect later where
  size := moved.size.trans reached.size
  kept reader node there plain := by
    obtain ⟨after, found, op, dead, edges⟩ := reached.kept reader node there plain
    by_cases same : reader = user
    · subst same
      rw [read] at found
      cases found
      rw [inputs_of_eq old reader node there] at edge
      refine ⟨_, moved.here, op, dead, fun place input held stays => ?_⟩
      by_cases here : index = place
      · subst here
        rw [edge] at held
        cases held
        rw [getElem?_set_self', op]
        rcases edges index id edge stays with unmoved | ⟨_, _, moved⟩
        · exact .inr ⟨rfl, control, by rw [unmoved]; rfl⟩
        · exact .inr ⟨rfl, control, by rw [moved]; rfl⟩
      · rw [getElem?_set_ne here]
        exact edges place input held stays
    · exact ⟨after, (moved.elsewhere reader same).trans found, op, dead, edges⟩
  only reader after live := by
    by_cases same : reader = user
    · subst same
      cases moved.here.symm.trans live.1
      exact reached.only reader next ⟨read, live.2⟩
    · exact reached.only reader after ⟨(moved.elsewhere reader same).symm.trans live.1, live.2⟩

-- A projection that goes away was one of the node from the start, and nothing is pointed at it.
theorem rewired_bypasses (bypassed : old.bypasses id user)
    (valueStays : old.bypasses id value = false) (effectStays : old.bypasses id effect = false) {control : NodeId}
    (dead : killed.dead) (moved : Edited (new.replaceAllUses user control) later user killed) :
    Rewired old id value effect later where
  size := moved.size.trans ((new.replace_all_uses_size user control).trans reached.size)
  kept reader node there plain := by
    obtain ⟨after, found, op, still, edges⟩ := reached.kept reader node there plain
    obtain ⟨inputs, read, kept, changed⟩ := new.replace_all_uses_keeps user control found
    have apart : reader ≠ user := by
      rintro rfl
      obtain ⟨again, live, projects, _⟩ := (bypasses_iff old id reader).mp bypassed
      cases there.symm.trans live.1
      exact plain projects
    refine ⟨_, (moved.elsewhere reader apart).trans read, op, still, fun index input edge stays => ?_⟩
    rcases edges index input edge stays with unmoved | ⟨same, source, redirected⟩
    · refine .inl (kept index input unmoved ?_)
      rintro rfl
      rw [bypassed] at stays
      cases stays
    · refine .inr ⟨same, ?_⟩
      by_cases gone : (node.op.layout.edgeKind index).target value effect source = user
      · -- Only a control edge can have come to point at the projection.
        have controlled : node.op.layout.edgeKind index = .control := by
          cases kind : node.op.layout.edgeKind index with
          | control => rfl
          | effect =>
            rw [kind] at gone
            rw [← gone, EdgeKind.target, effectStays] at bypassed
            cases bypassed
          | _ =>
            rw [kind] at gone
            rw [← gone, EdgeKind.target, valueStays] at bypassed
            · cases bypassed
            all_goals rintro ⟨⟩
        rw [gone] at redirected
        rw [controlled]
        rcases changed index redirected with unmoved | moved
        · exact ⟨user, unmoved⟩
        · exact ⟨control, moved⟩
      · exact ⟨source, kept index _ redirected gone⟩
  only reader after live := by
    obtain ⟨before, there, op⟩ := bypassed_back dead moved live
    rw [op]
    exact reached.only reader before there

theorem rewired_bypassed (listed : (user, index) ∈ old.useEdges id)
    (live : new.Live user next) (success : next.op = .control .ifSuccess) : old.bypasses id user := by
  obtain ⟨node, alive, op⟩ := reached.only user next live
  have points := ((old.mem_use_edges id user index).mp listed).2
  rw [old.inputs_of_eq user node alive.1] at points
  exact (bypasses_iff old id user).mpr ⟨node, alive, op ▸ success, mem_of_getElem? points⟩

variable (valueStays : old.bypasses id value = false) (effectStays : old.bypasses id effect = false)

include valueStays effectStays

theorem rewired_step (listed : (user, index) ∈ old.useEdges id)
    (step : Redirects value effect new user index later) : Rewired old id value effect later := by
  have points := ((old.mem_use_edges id user index).mp listed).2
  cases step with
  | rests same =>
    rw [same]
    exact reached
  | moves next source read moved => exact rewired_moves reached points read moved
  | bypasses next killed source live success dead gone =>
    have bypassed := rewired_bypassed reached listed live success
    exact rewired_bypasses reached bypassed valueStays effectStays dead gone

omit reached

theorem replace_with_value_rewired {control : Option NodeId} (run : old.replaceWithValue id value (some effect) control = .ok new) :
    Rewired old id value effect new := by
  obtain ⟨source, _, folded⟩ := replace_with_value_folds run
  refine fold_m_holds (fun _ graph => Rewired old id value effect graph) (rewired_refl old id value effect) ?_ folded
  intro _ edge graph later listed reached step
  exact rewired_step reached valueStays effectStays listed (redirect_edge_cases step)

-- With use lists that are in step, what becomes of every edge is known.
theorem replace_with_value_diverted (mirrored : old.Mirrored) (self : old.bypasses id id = false) {own : Node}
    (read : old.node? id = some own) (controls : 0 < own.op.layout.controls) {control : Option NodeId}
    (run : old.replaceWithValue id value (some effect) control = .ok new) :
    ∃ target, (control = some target ∨ control = none ∧ old.controlInput id = .ok target) ∧
      Diverted old id value effect target new := by
  obtain ⟨source, given, folded⟩ := replace_with_value_folds run
  obtain ⟨target, rfl, origin⟩ := given own read controls
  exact ⟨target, origin, yields_ok _ _ (divert_all_yields mirrored self valueStays effectStays) folded⟩

end

end SeaOfNodes.Graph
