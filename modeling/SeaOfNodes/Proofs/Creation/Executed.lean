import SeaOfNodes.Proofs.Creation.Regions

/-! What an inline creation has done to the graph when it is over. -/

namespace SeaOfNodes

open List Build SeaOfNodes.Graph

variable {graph : Graph} {object : NodeId} {limit : UInt32} {outcome : Reduction} {node : Node}

section

variable {id : NodeId} {s t : Workspace}

theorem change_edited {change : Graph → Except Fault Graph} {next : Node}
    (spec : Yields (change s.graph) fun new => s.graph.Edited new id next) (run : Build.change change s = .ok () t) :
    s.graph.Edited t.graph id next := by
  obtain ⟨graph, done, rfl⟩ := runs_change.mp run
  exact yields_ok (fun new => s.graph.Edited new id next) graph spec done

theorem replace_input_inside {later : Graph} {index : Nat} {input : NodeId} (read : graph.node? id = some node)
    (run : graph.replaceInput id index input = .ok later) : index < node.inputs.length := by
  obtain ⟨old, there, _⟩ := bind_eq_ok.mp run
  obtain ⟨again, found, edge⟩ := (graph.edge_iff id).mp there
  cases read.symm.trans found
  exact (List.getElem?_eq_some_iff.mp edge).1

structure Closes (old new : Graph) (id object effect : NodeId) : Prop where
  size : new.size = old.size
  here : ∀ node, old.node? id = some node →
    ∃ next, new.node? id = some next ∧ next.op = .finishRegion ∧ next.inputs = [object, effect]
  elsewhere : ∀ user, user ≠ id → ∀ node, old.node? user = some node → ∃ type, new.node? user = some { node with type := type }
  mirrored : old.Mirrored → new.Mirrored

theorem finish_as_closes {a : Allocation} {id : NodeId} (found : a.object = some object)
    (run : a.finishAs id s = .ok () t) : Closes s.graph t.graph id object a.effect := by
  have rest : ∀ u : Workspace, s.graph.Extends u.graph → u.graph.size = s.graph.size → (do
        change fun graph => graph.replaceInput id 0 object
        change fun graph => graph.replaceInput id 1 a.effect
        change fun graph => graph.trimInputs id 2
        Build.change fun graph => graph.changeOp id .finishRegion : Build Unit) u = .ok () t →
      Closes s.graph t.graph id object a.effect := by
    intro u grown size run
    obtain ⟨_, v, first, run⟩ := runs_bind.mp run
    obtain ⟨_, w, second, run⟩ := runs_bind.mp run
    obtain ⟨_, x, third, fourth⟩ := runs_bind.mp run
    obtain ⟨_, done, _⟩ := runs_change.mp first
    obtain ⟨_, there, _⟩ := bind_eq_ok.mp done
    obtain ⟨node, read, _⟩ := (u.graph.edge_iff id).mp there
    have begun := change_edited (u.graph.replace_input_yields id 0 object node read) first
    obtain ⟨_, done, _⟩ := runs_change.mp second
    have enough := replace_input_inside begun.here done
    have wired := edited_trans begun (change_edited (v.graph.replace_input_yields id 1 a.effect _ begun.here) second)
    have trimmed := edited_trans wired (change_edited (w.graph.trim_inputs_yields id 2 _ wired.here) third)
    have ended := edited_trans trimmed (change_edited (x.graph.change_op_yields id .finishRegion _ trimmed.here) fourth)
    refine ⟨ended.size.trans size, fun _ _ => ⟨_, ended.here, rfl, ?_⟩, fun user apart former before => ?_, fun mirrored =>
      ended.mirrored (grown.mirrored mirrored)⟩
    · exact finish_inputs object a.effect node.inputs (by rw [length_set] at enough; exact enough)
    · obtain ⟨type, kept⟩ := grown.kept user former before
      exact ⟨type, (ended.elsewhere user apart).trans kept⟩
  have retyped : ∀ (target : NodeId) (type : ValueType) (u : Workspace),
      change (fun graph => graph.setType target type) s = .ok () u →
        s.graph.Extends u.graph ∧ u.graph.size = s.graph.size := by
    intro target type u done
    obtain ⟨graph, typed, rfl⟩ := runs_change.mp done
    obtain ⟨_, _, same⟩ := bind_eq_ok.mp typed
    cases same
    exact ⟨s.graph.extends_retype target type, s.graph.size_modify target _⟩
  obtain ⟨node, _, here, run⟩ := runs_bind.mp run
  obtain ⟨_, rfl⟩ := runs_query.mp here
  obtain ⟨_, _, here, run⟩ := runs_bind.mp run
  obtain ⟨same, rfl⟩ := runs_of_except.mp here
  cases found.symm.trans (present_eq_ok.mp same)
  dsimp only at run
  split at run
  · obtain ⟨made, _, here, run⟩ := runs_bind.mp run
    obtain ⟨_, rfl⟩ := runs_query.mp here
    obtain ⟨_, u, typed, run⟩ := runs_bind.mp run
    obtain ⟨grown, size⟩ := retyped _ _ u typed
    exact rest u grown size run
  · obtain ⟨_, u, typed, run⟩ := runs_bind.mp run
    obtain ⟨grown, size⟩ := retyped _ _ u typed
    exact rest u grown size run

end

section

variable {trusted shaped : Prop} {s t : Workspace}

theorem actions_at_append {control : NodeId} {first second : List Action} {mades : List (List NodeId)}
    {before after : Plan.Progress} (done : ActionsAt trusted graph control before (first ++ second) mades after) :
    ∃ early late middle, mades = early ++ late ∧ ActionsAt trusted graph control before first early middle ∧
      ActionsAt trusted graph control middle second late after := by
  induction first generalizing mades before with
  | nil => exact ⟨[], mades, before, rfl, rfl, done⟩
  | cons action rest ih =>
    cases mades with
    | nil => exact done.elim
    | cons made more =>
      obtain ⟨next, here, later⟩ := done
      obtain ⟨early, late, middle, rfl, begins, goes⟩ := ih later
      exact ⟨made :: early, late, middle, rfl, ⟨next, here, begins⟩, goes⟩

inductive Ends (plan : Plan) (id : NodeId) (a : Allocation) (s t : Workspace) : Reduction → Prop
  | become (graph : Graph) (relaxed : s.graph.relaxControls id = .ok graph)
      (finished : a.finishAs id { s with graph := graph } = .ok () t) : Ends plan id a s t (.changed id)
  | replace (value : NodeId) (w : Workspace) (finished : a.finish s = .ok value w)
      (replaced : w.graph.replaceWithValue id value (some value) (some plan.control) = .ok t.graph)
      (ending : plan.ending = .replace) : Ends plan id a s t (.replaced value)

theorem execute_ends {plan : Plan} {id : NodeId} (run : plan.execute limit id s = .ok outcome t) :
    ∃ progress u a v, plan.actions.foldlM (plan.perform limit) { effect := plan.effect } s = .ok progress u ∧
      plan.openRegion limit progress plan.last u = .ok a v ∧ Ends plan id a v t outcome := by
  obtain ⟨progress, u, performed, run⟩ := runs_bind.mp run
  obtain ⟨a, v, opened, run⟩ := runs_bind.mp run
  refine ⟨progress, u, a, v, performed, opened, ?_⟩
  cases ending : plan.ending with
  | become =>
    rw [ending] at run
    obtain ⟨_, w, relaxed, run⟩ := runs_bind.mp run
    obtain ⟨_, x, finished, run⟩ := runs_bind.mp run
    cases run
    obtain ⟨graph, done, rfl⟩ := runs_change.mp relaxed
    exact .become graph done finished
  | replace =>
    rw [ending] at run
    obtain ⟨value, w, finished, run⟩ := runs_bind.mp run
    obtain ⟨_, x, replaced, run⟩ := runs_bind.mp run
    cases run
    obtain ⟨graph, done, rfl⟩ := runs_change.mp replaced
    exact .replace value w finished done ending

structure Executed (trusted shaped : Prop) (graph : Graph) (plan : Plan) (checks : List NodeId)
    (regions : List Built) : Prop where
  checks : ∀ check ∈ checks, ∃ op, graph.Performs check op ∧ op.checks = true
  some : regions ≠ []
  planned : ∀ built ∈ regions, .region built.region ∈ plan.actions ∨ built.region = plan.last
  regions : ∀ built ∈ regions, built.Stands trusted graph shaped ∧ built.region.generation = plan.last.generation

section

variable {old new : Graph} {id effect : NodeId} (request : Creation) (creation : Node) (created : old.node? id = some creation)
  (asked : creation.op = .create request) (plan : Plan) {base : Graph} (tidy : plan.Tidy shaped base id)
  (mades : List (List NodeId)) (progress : Plan.Progress) (nodes : RegionNodes) (last : NodeId)
  (done : ActionsAt trusted old plan.control { effect := plan.effect } plan.actions mades progress)
  (laid : plan.last.At trusted old progress.results plan.control progress.effect nodes last)

include created asked tidy done laid

theorem plan_stands (settled : Settled old id effect new) {ends : NodeId}
    (closes : new.Performs ends .finishRegion ∧ new.Edge ends 0 nodes.object ∧ new.effectInput ends = .ok last) :
    ∃ checks regions, Executed trusted shaped new plan checks regions ∧
      (Safe old id effect plan.effect → new.Follows plan.effect (checks ++ (regions.map Built.path).flatten) ends) ∧
      ∀ user ∈ mades.flatten ++ nodes.chain, ∃ op, new.Performs user op ∧ op.stays ∧
        ∀ generation, op = .allocate generation → ∃ built ∈ regions, built.nodes.object = user := by
  obtain ⟨before, after, actions, prepares, builds⟩ := tidy.actions
  rw [actions] at done
  obtain ⟨early, late, middle, rfl, first, second⟩ := actions_at_append done
  obtain ⟨checks, leads, checking, kinds⟩ :=
    prepared_path settled request creation created asked prepares first
  obtain ⟨regions, follows, stand, planned, listed⟩ :=
    built_path settled request creation created asked builds second
  obtain ⟨stands, path⟩ := region_stands settled request creation created asked tidy.last laid closes
  let final : Built := ⟨plan.last, nodes, last, ends⟩
  have all : ∀ built ∈ regions ++ [final], built.Stands trusted new shaped ∧ built.region.generation = plan.last.generation :=
    forall_mem_append.mpr ⟨stand, forall_mem_singleton.mpr ⟨stands, rfl⟩⟩
  have held : ∀ built ∈ regions ++ [final], .region built.region ∈ plan.actions ∨ built.region = plan.last := by
    rw [actions]
    exact forall_mem_append.mpr ⟨fun built member => .inl (mem_append_right _ (planned built member)),
      forall_mem_singleton.mpr (.inr rfl)⟩
  refine ⟨checks, regions ++ [final], ⟨checking, by simp, held, all⟩, fun safe => ?_, ?_⟩
  · obtain ⟨begins, between⟩ := leads safe
    obtain ⟨goes, ready⟩ := follows between
    rw [map_append, flatten_append, map_singleton, flatten_singleton]
    exact new.follows_append _ _ _ _ _ begins (new.follows_append _ _ _ _ _ goes (path ready))
  · -- Nodes of a region are sorted by the region, those before the first one by their own operators.
    have sorted : ∀ built ∈ regions ++ [final], ∀ user ∈ built.path, ∃ op, new.Performs user op ∧ op.stays ∧
        ∀ generation, op = .allocate generation → ∃ other ∈ regions ++ [final], other.nodes.object = user := by
      intro built member user inside
      obtain ⟨op, performs, stays, only⟩ := stands_sorts (all built member).1 inside
      exact ⟨op, performs, stays, fun generation same => ⟨built, member, (only generation same).symm⟩⟩
    rw [flatten_append, listed]
    intro user member
    rcases mem_append.mp member with earlier | chained
    · rcases mem_append.mp earlier with prepared | inside
      · obtain ⟨op, performs, sort⟩ := kinds user prepared
        refine ⟨op, performs, ?_, ?_⟩
        · exact sort.elim (fun checks => (op.checks_shape checks).1) fun computes => (op.computes_shape computes).1
        · rintro generation rfl
          rcases sort with impossible | impossible <;> cases impossible
      · obtain ⟨path, listed, inside⟩ := mem_flatten.mp inside
        obtain ⟨built, held, rfl⟩ := mem_map.mp listed
        exact sorted built (mem_append_left _ held) user inside
    · exact sorted final (mem_append_right _ (mem_singleton_self _)) user (mem_append_left _ chained)

-- A graph is settled as it is.
theorem made_stays : ∀ user ∈ mades.flatten ++ nodes.chain, ∃ op, old.Performs user op ∧ op.stays := by
  have settled := old.settled_refl id
  obtain ⟨before, after, actions, prepares, builds⟩ := tidy.actions
  rw [actions] at done
  obtain ⟨early, late, middle, rfl, first, second⟩ := actions_at_append done
  obtain ⟨_, _, _, kinds⟩ := prepared_path settled request creation created asked prepares first
  obtain ⟨regions, _, stand, _, listed⟩ :=
    built_path settled request creation created asked builds second
  obtain ⟨begins, object, _, lands, _⟩ := region_lands settled request creation created asked laid
  rw [flatten_append, listed]
  refine forall_mem_append.mpr ⟨forall_mem_append.mpr ⟨fun user prepared => ?_, fun user inside => ?_⟩, ?_⟩
  · obtain ⟨op, performs, sort⟩ := kinds user prepared
    exact ⟨op, performs, sort.elim (fun checks => (op.checks_shape checks).1) fun computes => (op.computes_shape computes).1⟩
  · obtain ⟨path, listed, inside⟩ := mem_flatten.mp inside
    obtain ⟨built, held, rfl⟩ := mem_map.mp listed
    obtain ⟨op, performs, stays, _⟩ := stands_sorts (stand built held).1 inside
    exact ⟨op, performs, stays⟩
  · refine forall_mem_cons.mpr ⟨⟨_, begins, rfl⟩, forall_mem_cons.mpr ⟨⟨_, object, rfl⟩, fun user stored => ?_⟩⟩
    obtain ⟨op, performs, stores⟩ := lands_performs lands user stored
    exact ⟨op, performs, op.store_stays stores⟩

end

section

variable {effect : NodeId} {old new : Graph} {made : List NodeId} {id : NodeId} (added : Adds old new made)

include added

theorem adds_kept (read : old.node? id = some node) : ∃ next, new.node? id = some next ∧ next.op = node.op := by
  obtain ⟨type, there⟩ := added.grown.kept id node read
  exact ⟨_, there, rfl⟩

-- What does not stay was there before.
theorem adds_back (stays : ∀ user ∈ made, ∃ op, new.Performs user op ∧ op.stays) (live : new.Live id node)
    (moves : node.op.stays = false) : ∃ former, old.Live id former ∧ former.op = node.op ∧ former.inputs = node.inputs := by
  by_cases before : id < old.size
  · obtain ⟨former, read⟩ := old.node_of_lt id before
    obtain ⟨type, again⟩ := added.grown.kept id former read
    cases live.1.symm.trans again
    exact ⟨former, ⟨read, live.2⟩, rfl, rfl⟩
  · rcases added.others id node (Nat.le_of_not_lt before) live.1 with listed | ⟨value, constant, _⟩
    · obtain ⟨op, performs, rests⟩ := stays id listed
      obtain ⟨again, read, rfl⟩ := (new.performs_iff id).mp performs
      cases live.1.symm.trans read
      rw [moves] at rests
      cases rests
    · rw [constant] at moves
      cases moves

theorem adds_unbypassed (stays : ∀ user ∈ made, ∃ op, new.Performs user op ∧ op.stays)
    (unbypassed : old.bypasses id effect = false) : new.bypasses id effect = false := by
  refine Bool.eq_false_iff.mpr fun bypassed => ?_
  obtain ⟨node, live, projects, member⟩ := (bypasses_iff new id effect).mp bypassed
  obtain ⟨former, before, op, inputs⟩ := adds_back added stays live (by rw [projects]; rfl)
  rw [(bypasses_iff old id effect).mpr ⟨former, before, op.trans projects, inputs ▸ member⟩] at unbypassed
  cases unbypassed

-- A node that allocates is new in the order of effects, or was there before.
theorem adds_allocates {last : Graph} (settled : Settled new id effect last) {request : Creation} {creation : Node}
    (created : new.node? id = some creation) (asked : creation.op = .create request) {generation : Generation}
    (late : old.size ≤ object) (performs : last.Performs object (.allocate generation)) : object ∈ made := by
  obtain ⟨next, read, same⟩ := (last.performs_iff object).mp performs
  obtain ⟨node, there⟩ := new.node_of_lt object (settled.size ▸ last.node_lt read)
  rcases added.others object node late there with listed | ⟨value, constant, _⟩
  · exact listed
  · have kept := settled_performs settled request creation created asked object (.constant value)
      ((new.performs_iff object).mpr ⟨node, there, constant⟩) rfl
    cases last.performs_unique object kept performs

end

theorem finish_region_closes {id last : NodeId} {node : Node} (read : graph.node? id = some node)
    (ends : node.op = .finishRegion) (inputs : node.inputs = [object, last]) :
    graph.Performs id .finishRegion ∧ graph.Edge id 0 object ∧ graph.effectInput id = .ok last := by
  refine ⟨(graph.performs_iff id).mpr ⟨node, read, ends⟩, (graph.edge_iff id).mpr ⟨node, read, by rw [inputs]; rfl⟩, ?_⟩
  exact graph.effect_input_eq id last read (by rw [ends]; rfl) (by rw [ends]; exact one_pos) (by rw [ends, inputs]; rfl)

theorem creation_unbypassed {id : NodeId} {request : Creation} {creation : Node}
    (created : graph.node? id = some creation) (asked : creation.op = .create request) : graph.bypasses id id = false := by
  refine Bool.eq_false_iff.mpr fun bypassed => ?_
  obtain ⟨node, live, projects, _⟩ := (bypasses_iff graph id id).mp bypassed
  cases live.1.symm.trans created
  rw [asked] at projects
  cases projects

-- All nodes of a plan are there before the creation makes way for them.
theorem execute_lays (known : trusted → s.graph.Interned) {plan : Plan} {id : NodeId}
    (run : plan.execute limit id s = .ok outcome t) :
    ∃ progress a v mades nodes, a.object = some nodes.object ∧ Adds s.graph v.graph (mades.flatten ++ nodes.chain) ∧
      ActionsAt trusted v.graph plan.control { effect := plan.effect } plan.actions mades progress ∧
      plan.last.At trusted v.graph progress.results plan.control progress.effect nodes a.effect ∧ Ends plan id a v t outcome := by
  obtain ⟨progress, u, a, v, performed, opened, ends⟩ := execute_ends run
  obtain ⟨mades, added, done⟩ := perform_all_adds known plan limit { effect := plan.effect } progress plan.actions performed
  obtain ⟨nodes, found, more, laid⟩ := open_region_adds (fun holds => added.interned (known holds)) opened
  exact ⟨progress, a, v, mades, nodes, found, adds_trans added more, actions_at_extends more.grown done, laid, ends⟩

theorem execute_builds (known : trusted → s.graph.Interned) (plan : Plan) (limit : UInt32) (id : NodeId) (outcome : Reduction)
    (tidy : plan.Tidy shaped s.graph id) (request : Creation) (creation : Node) (created : s.graph.node? id = some creation)
    (asked : creation.op = .create request) (run : plan.execute limit id s = .ok outcome t) :
    ∃ last checks regions, (outcome = .changed last ∨ outcome = .replaced last) ∧
      Executed trusted shaped t.graph plan checks regions ∧
      (s.graph.bypasses id plan.effect = false → (outcome = .replaced last → plan.effect ≠ id) →
        t.graph.Follows plan.effect (checks ++ (regions.map Built.path).flatten) last) ∧
      ∀ object generation, s.graph.size ≤ object → t.graph.Performs object (.allocate generation) →
        ∃ built ∈ regions, built.nodes.object = object := by
  obtain ⟨progress, a, v, mades, nodes, found, whole, done, laid, ends⟩ := execute_lays known run
  obtain ⟨next, there, same⟩ := adds_kept whole created
  rw [asked] at same
  cases ends with
  | become graph relaxed finished =>
    have rewired := replace_with_value_rewired (creation_unbypassed there same) (creation_unbypassed there same) relaxed
    have closed := finish_as_closes found finished
    have settled := settled_elsewhere (rewired_settled _ rewired) closed.size closed.elsewhere
    obtain ⟨former, kept, _⟩ := rewired.kept id next there (by rw [same]; exact nofun)
    obtain ⟨final, read, ends, inputs⟩ := closed.here former kept
    obtain ⟨checks, regions, executed, follows, sorts⟩ := plan_stands request next there same plan tidy mades progress nodes
      a.effect done laid settled (finish_region_closes read ends inputs)
    have stays := made_stays request next there same plan tidy mades progress nodes a.effect done laid
    refine ⟨id, checks, regions, .inl rfl, executed, fun unbypassed _ => ?_, fun object generation late performs => ?_⟩
    · exact follows ⟨adds_unbypassed whole stays unbypassed, fun _ => rfl⟩
    · have listed := adds_allocates whole settled there same late performs
      obtain ⟨op, other, _, only⟩ := sorts object listed
      exact only generation (t.graph.performs_unique object other performs)
  | replace value w finished replaced =>
    obtain ⟨last, has⟩ := finish_adds found finished
    have whole := adds_trans whole last
    have done := actions_at_extends last.grown done
    have laid := region_at_extends last.grown laid
    obtain ⟨next, there, same⟩ := adds_kept whole created
    rw [asked] at same
    have ending := w.graph.has_performs _ has
    obtain ⟨_, unbypassed⟩ := stays_apart request next there same ending rfl
    have settled := rewired_settled _ (replace_with_value_rewired unbypassed unbypassed replaced)
    obtain ⟨checks, regions, executed, follows, sorts⟩ := plan_stands request next there same plan tidy mades progress nodes
      a.effect done laid settled (region_closes settled request next there same laid has)
    have stays := made_stays request next there same plan tidy mades progress nodes a.effect done laid
    refine ⟨value, checks, regions, .inr rfl, executed, fun unbypassed apart => ?_, fun object generation late performs => ?_⟩
    · refine follows ⟨adds_unbypassed whole ?_ unbypassed, fun same => absurd same (apart rfl)⟩
      exact forall_mem_append.mpr ⟨stays, forall_mem_singleton.mpr ⟨_, ending, rfl⟩⟩
    · have listed := adds_allocates whole settled there same late performs
      rcases mem_append.mp listed with earlier | latest
      · obtain ⟨op, other, _, only⟩ := sorts object earlier
        exact only generation (t.graph.performs_unique object other performs)
      · rw [mem_singleton.mp latest] at performs
        have kept := settled_performs settled request next there same value _ ending rfl
        cases t.graph.performs_unique value kept performs

theorem reduce_executes {c : CreationContext} {id : NodeId} (run : c.reduce id s = .ok outcome t)
    (rewritten : outcome ≠ .unchanged) :
    ∃ plan request creation, c.decide s.graph id = .ok (.inline plan) ∧ plan.Tidy False s.graph id ∧
      s.graph.node? id = some creation ∧ creation.op = .create request ∧
      plan.execute c.config.maxObjectSize id s = .ok outcome t := by
  obtain ⟨decision, _, asked, run⟩ := runs_bind.mp run
  obtain ⟨decided, rfl⟩ := runs_query.mp asked
  cases decision with
  | decline =>
    obtain ⟨same, _⟩ := runs_pure.mp run
    exact absurd same.symm rewritten
  | declineLiteral reason =>
    obtain ⟨_, _, _, run⟩ := runs_bind.mp run
    obtain ⟨same, _⟩ := runs_pure.mp run
    exact absurd same.symm rewritten
  | inline plan =>
    obtain ⟨op, carried, chosen⟩ := bind_eq_ok.mp decided
    obtain ⟨creation, read, rfl⟩ := (s.graph.op_eq_ok id op).mp carried
    cases asked : creation.op with
    | create request =>
      exact ⟨plan, request, creation, decided, c.decide_tidy (asked ▸ carried) False.elim decided, read, asked, run⟩
    | _ =>
      rw [asked] at chosen
      cases chosen

end

end SeaOfNodes
