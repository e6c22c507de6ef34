import SeaOfNodes.Proofs.Lowering.Carried
import SeaOfNodes.Proofs.Lowering.Worklist

/-! What each reducer does to a node. -/

namespace SeaOfNodes

open List Build SeaOfNodes.Graph

namespace Graph

variable {old new : Graph} {id : NodeId}

theorem rests_rewired {value effect : NodeId} (rewired : Rewired old id value effect new) : Rests old new where
  size := rewired.size.symm.le
  dead user _ lives := by
    obtain ⟨next, live⟩ := lives
    obtain ⟨node, before, _⟩ := rewired.only user next live
    exact ⟨node, before⟩

theorem rests_closes {object effect : NodeId} (closed : Closes old new id object effect) (lives : old.HasLive id) :
    Rests old new where
  size := closed.size.symm.le
  dead user inside after := by
    by_cases same : user = id
    · exact same ▸ lives
    · obtain ⟨next, live⟩ := after
      obtain ⟨node, read⟩ := old.node_of_lt user inside
      obtain ⟨type, there⟩ := closed.elsewhere user same node read
      cases there.symm.trans live.1
      exact ⟨node, read, live.2⟩

end Graph

section

variable {c : CreationContext} {s t : Workspace} {id : NodeId}

theorem reduce_declines (run : c.reduce id s = .ok .unchanged t) :
    t.graph = s.graph ∧ ∃ decision, c.decide s.graph id = .ok decision ∧ ∀ plan, decision ≠ .inline plan := by
  obtain ⟨decision, _, asked, run⟩ := runs_bind.mp run
  obtain ⟨decided, rfl⟩ := runs_query.mp asked
  cases decision with
  | decline =>
    cases run
    exact ⟨rfl, _, decided, by rintro _ ⟨⟩⟩
  | declineLiteral reason =>
    obtain ⟨_, _, noted, run⟩ := runs_bind.mp run
    obtain rfl := runs_note.mp noted
    cases run
    exact ⟨rfl, _, decided, by rintro _ ⟨⟩⟩
  | inline plan =>
    obtain ⟨_, _, _, _, _, _, ends⟩ := execute_ends run
    cases ends

theorem decided_declines {decision : Decision} (decided : c.decide s.graph id = .ok decision)
    (declined : ∀ plan, decision ≠ .inline plan) : ∃ t, c.reduce id s = .ok .unchanged t := by
  have asked : query (fun graph => c.decide graph id) s = .ok decision s := runs_query.mpr ⟨decided, rfl⟩
  cases decision with
  | decline => exact ⟨s, runs_bind.mpr ⟨_, s, asked, rfl⟩⟩
  | declineLiteral reason => exact ⟨_, runs_bind.mpr ⟨_, s, asked, rfl⟩⟩
  | inline plan => exact absurd rfl (declined plan)

theorem reduce_rests {outcome : Reduction} (lives : s.graph.HasLive id) (run : c.reduce id s = .ok outcome t)
    (rewritten : outcome ≠ .unchanged) : s.graph.Rests t.graph := by
  obtain ⟨plan, request, creation, _, _, created, asked, executed⟩ := reduce_executes run rewritten
  obtain ⟨progress, a, v, mades, nodes, found, added, _, _, ends⟩ := execute_lays False.elim executed
  have whole := added.grown
  cases ends with
  | become graph relaxed finished =>
    obtain ⟨type, there⟩ := whole.kept id creation created
    have self := creation_unbypassed there asked
    have rewired := replace_with_value_rewired self self relaxed
    obtain ⟨former, kept, _, dead, _⟩ := rewired.kept id _ there (by rw [asked]; rintro ⟨⟩)
    obtain ⟨node, live⟩ := lives
    cases live.1.symm.trans created
    have rests := rests_trans (rests_extends whole) (rests_rewired rewired)
    exact rests_trans rests (rests_closes (finish_as_closes found finished) ⟨former, kept, dead.trans live.2⟩)
  | replace value w finished replaced =>
    obtain ⟨last, has⟩ := finish_adds found finished
    have all := extends_trans whole last.grown
    obtain ⟨type, there⟩ := all.kept id creation created
    obtain ⟨_, unbypassed⟩ := stays_apart request _ there asked (w.graph.has_performs _ has) rfl
    exact rests_trans (rests_extends all) (rests_rewired (replace_with_value_rewired unbypassed unbypassed replaced))

theorem inline_steady (c : CreationContext) : (Reducer.inlineCreation c).Steady where
  refuses s t id _ run := by
    obtain ⟨same, decision, decided, declined⟩ := reduce_declines run
    exact ⟨same, fun u equal => decided_declines (equal ▸ decided) declined⟩
  changes s t id again _ run := by
    obtain ⟨plan, _, _, _, _, _, _, executed⟩ := reduce_executes run (by rintro ⟨⟩)
    obtain ⟨_, _, _, _, _, _, ends⟩ := execute_ends executed
    cases ends
    rfl
  rests s t id reduction lives run := by
    by_cases refused : reduction = .unchanged
    · subst refused
      rw [(reduce_declines run).1]
      exact s.graph.rests_refl
    · exact reduce_rests lives run refused

end

section

variable {α : Type} {old new : Graph}

def Build.Reads {α : Type} (work : Build α) : Prop := ∀ s value t, work s = .ok value t → t.graph = s.graph

theorem reads_query {read : Graph → Except Fault α} : (query read).Reads := by
  intro s value t run
  rw [(runs_query.mp run).2]

theorem reads_of_except {outcome : Except Fault α} : (ofExcept outcome).Reads := by
  intro s value t run
  rw [(runs_of_except.mp run).2]

theorem reads_get : Reads (get : Build Workspace) := by
  intro s value t run
  rw [(runs_get.mp run).2]

theorem reads_report {violation : Violation} : (report violation).Reads :=
  fun _ result _ run => report_graph run

theorem reads_checks : checks.Reads := by
  intro s value t run
  obtain ⟨_, _, read, run⟩ := runs_bind.mp run
  obtain ⟨_, rfl⟩ := runs_get.mp read
  rw [(runs_pure.mp run).2]

theorem reads_intern {descriptor : CallDescriptor} : (intern descriptor).Reads := by
  intro s value t run
  obtain ⟨_, _, read, run⟩ := runs_bind.mp run
  obtain ⟨_, rfl⟩ := runs_get.mp read
  obtain ⟨_, _, changed, run⟩ := runs_bind.mp run
  cases changed
  cases run
  rfl

def BecomesCall (old : Graph) (id : NodeId) (new : Graph) : Prop :=
  ∃ middle node site inputs, Graph.Adds old middle [] ∧ middle.Live id node ∧ node.op.isCreation = true ∧
    middle.Edited new id { node with op := .call site, inputs := inputs }

def MakesCall (id : NodeId) (work : Build Reduction) : Prop :=
  ∀ s reduction t, s.graph.pending id = true → work s = .ok reduction t → reduction = .changed id ∧ BecomesCall s.graph id t.graph

variable {id : NodeId}

theorem pending_called (called : BecomesCall old id new) (other : NodeId) :
    new.pending other ↔ old.pending other ∧ other ≠ id := by
  obtain ⟨middle, node, site, inputs, added, live, creates, edited⟩ := called
  rw [pending_edited edited (.inr rfl), pending_adds added (by rintro _ ⟨⟩)]

theorem makes_call_reads {first : Build α} {next : α → Build Reduction} (reads : first.Reads)
    (rest : ∀ value, MakesCall id (next value)) : MakesCall id (first >>= next) := by
  intro s reduction t waits run
  obtain ⟨value, u, read, run⟩ := runs_bind.mp run
  have same := reads s value u read
  rw [← same] at waits ⊢
  exact rest value u reduction t waits run

theorem makes_call_constant {value : Constant} {next : NodeId → Build Reduction} (rest : ∀ place, MakesCall id (next place)) :
    MakesCall id (constant value >>= next) := by
  intro s reduction t waits run
  obtain ⟨place, u, made, run⟩ := runs_bind.mp run
  obtain ⟨added, _⟩ := constant_adds made
  obtain ⟨changed, middle, node, site, inputs, more, called⟩ :=
    rest place u reduction t ((pending_adds added (by rintro _ ⟨⟩) id).mpr waits) run
  exact ⟨changed, middle, node, site, inputs, adds_trans added more, called⟩

theorem ite_makes_call (condition : Prop) [Decidable condition] {first second : Build Reduction}
    (yes : MakesCall id first) (no : MakesCall id second) :
    MakesCall id (if condition then first else second) := by
  split
  · exact yes
  · exact no

theorem makes_call_rewrite {inputs : List NodeId} {site : CallSite} : MakesCall id (do
      change fun graph => graph.trimInputs id 0
      inputs.forM fun input => change fun graph => graph.appendInput id input
      change fun graph => graph.changeOp id (.call site)
      pure (.changed id)) := by
  intro s reduction t waits run
  obtain ⟨node, live, creates⟩ := (s.graph.pending_iff id).mp waits
  obtain ⟨_, u, done, rfl, alters⟩ := CreationCall.rewrite_alters live.1 inputs site
  cases done.symm.trans run
  exact ⟨rfl, s.graph, node, site, _, s.graph.adds_refl, live, creates, alters.edited⟩

namespace CreationCall

variable {values : List NodeId} {reduction : Reduction}

theorem become_makes_call (descriptor : DescriptorId) : MakesCall id (become id descriptor values) := by
  refine makes_call_reads reads_get fun _ => ?_
  refine makes_call_reads reads_of_except fun callee => ?_
  refine makes_call_reads reads_query fun context? => ?_
  refine makes_call_reads reads_query fun frameState? => ?_
  refine makes_call_reads reads_query fun effect => ?_
  refine makes_call_reads reads_query fun control => ?_
  refine makes_call_reads reads_checks fun checks => ?_
  refine ite_makes_call _ ?_ makes_call_rewrite
  exact makes_call_reads reads_report fun _ => makes_call_rewrite

theorem runtime_makes_call (function : RuntimeFunction) : MakesCall id (runtime id function values) := by
  unfold runtime
  extract_lets called
  have rest : ∀ done, MakesCall id (called done) := by
    intro done
    refine makes_call_reads reads_query fun frameState? => ?_
    refine makes_call_reads reads_query fun op => ?_
    refine makes_call_reads reads_intern fun descriptor => ?_
    refine makes_call_constant fun entry => ?_
    refine makes_call_constant fun routine => ?_
    exact makes_call_constant fun count => become_makes_call descriptor
  refine makes_call_reads reads_checks fun checks => ?_
  refine ite_makes_call _ ?_ (rest ())
  split
  · refine ite_makes_call _ ?_ (rest ())
    exact makes_call_reads reads_report rest
  · exact rest ()

theorem builtin_makes_call {callee : Builtin} : MakesCall id (builtin id callee values) := by
  refine makes_call_reads reads_of_except fun interface => ?_
  refine makes_call_reads reads_intern fun descriptor => ?_
  exact makes_call_constant fun code => become_makes_call descriptor

theorem array_makes_call (heap : Snapshot) (arity : UInt32) (site : Option ObjectRef) :
    MakesCall id (array heap id arity site) := by
  refine makes_call_reads reads_query fun op => ?_
  refine makes_call_reads reads_of_except fun stack => ?_
  refine makes_call_reads reads_of_except fun interface => ?_
  refine makes_call_reads reads_intern fun descriptor => ?_
  refine makes_call_reads reads_query fun target => ?_
  refine makes_call_reads reads_query fun values => ?_
  refine makes_call_reads reads_of_except fun _ => ?_
  refine makes_call_constant fun code => ?_
  refine makes_call_constant fun place => ?_
  refine makes_call_constant fun count => ?_
  exact makes_call_constant fun receiver => become_makes_call descriptor

theorem literal_makes_call {function : RuntimeFunction} (site : LiteralSite) : MakesCall id (literal id function site) := by
  refine makes_call_reads reads_query fun closure => ?_
  refine makes_call_constant fun slot => ?_
  refine makes_call_constant fun constant => ?_
  exact makes_call_constant fun flags => runtime_makes_call function

theorem function_context_makes_call (slots : UInt32) (scope : Scope) : MakesCall id (functionContext id slots scope) := by
  refine makes_call_reads reads_query fun closure => ?_
  refine ite_makes_call _ ?_ ?_
  · exact makes_call_constant fun count => builtin_makes_call
  · exact makes_call_constant fun kind => runtime_makes_call _

theorem creation_makes_call (heap : Snapshot) (values : List NodeId) (request : Creation) :
    MakesCall id (reduceCreation heap id values request) := by
  cases request with
  | object | iterResult | keyValueArray | emptyLiteralObject | generator => exact runtime_makes_call _
  | arguments kind => exact makes_call_reads reads_query fun callee => builtin_makes_call
  | array arity site => exact array_makes_call heap arity site
  | literalArray site | literalObject site | literalRegExp site => exact literal_makes_call site
  | emptyLiteralArray slot =>
    refine makes_call_reads reads_query fun closure => ?_
    exact makes_call_constant fun place => runtime_makes_call _
  | functionContext slots scope => exact function_context_makes_call slots scope
  | withContext scopeInfo =>
    refine makes_call_constant fun scope => ?_
    refine makes_call_reads reads_of_except fun object => ?_
    exact makes_call_reads reads_of_except fun closure => runtime_makes_call _
  | catchContext name scopeInfo =>
    refine makes_call_reads reads_query fun exception => ?_
    refine makes_call_reads reads_query fun closure => ?_
    refine makes_call_constant fun text => ?_
    exact makes_call_constant fun scope => runtime_makes_call _
  | blockContext scopeInfo =>
    refine makes_call_constant fun scope => ?_
    exact makes_call_reads reads_of_except fun closure => runtime_makes_call _

theorem reduce_cases {heap : Snapshot} {s t : Workspace} (run : reduce heap id s = .ok reduction t) :
    (∃ request values, s.graph.op id = .ok (.create request) ∧ reduceCreation heap id values request s = .ok reduction t) ∨
      reduction = .unchanged ∧ t = s ∧ s.graph.pending id = false := by
  obtain ⟨op, _, read, run⟩ := runs_bind.mp run
  obtain ⟨carried, rfl⟩ := runs_query.mp read
  by_cases creates : op.isCreation
  · cases op with
    | create request =>
      obtain ⟨values, _, listed, run⟩ := runs_bind.mp run
      obtain ⟨_, rfl⟩ := runs_query.mp listed
      exact .inl ⟨request, values, carried, run⟩
    | _ => cases creates
  · have idle : s.graph.pending id = false := by
      refine Bool.eq_false_iff.mpr fun waits => ?_
      obtain ⟨node, live, requested⟩ := (s.graph.pending_iff id).mp waits
      obtain ⟨again, there, rfl⟩ := (s.graph.op_eq_ok id op).mp carried
      cases live.1.symm.trans there
      exact creates requested
    right
    cases op with
    | create request => exact absurd rfl creates
    | _ =>
      cases run
      exact ⟨rfl, rfl, idle⟩

theorem reduce_makes_call {heap : Snapshot} {s t : Workspace} (lives : s.graph.HasLive id)
    (run : reduce heap id s = .ok reduction t) :
    (reduction = .unchanged ∧ t = s ∧ s.graph.pending id = false) ∨ reduction = .changed id ∧ BecomesCall s.graph id t.graph := by
  rcases reduce_cases run with ⟨request, values, carried, run⟩ | declined
  · obtain ⟨node, live⟩ := lives
    obtain ⟨again, there, op⟩ := (s.graph.op_eq_ok id _).mp carried
    cases live.1.symm.trans there
    have waits : s.graph.pending id := (s.graph.pending_iff id).mpr ⟨node, live, by rw [op]; rfl⟩
    exact .inr (creation_makes_call heap values request s reduction t waits run)
  · exact .inl declined

end CreationCall

theorem rests_called (called : BecomesCall old id new) : old.Rests new := by
  obtain ⟨middle, node, _, _, added, live, _, edited⟩ := called
  exact rests_trans (rests_extends added.grown) (rests_edited edited (.inl ⟨node, live⟩))

variable {s : Workspace} (heap : Snapshot)

theorem call_refuses_iff (lives : s.graph.HasLive id) :
    Reducer.Refuses [.creationCall heap] s.graph id ↔ s.graph.pending id = false := by
  constructor
  · intro refused
    obtain ⟨t, run⟩ := refused _ mem_cons_self s rfl
    rcases CreationCall.reduce_makes_call lives run with ⟨_, _, idle⟩ | ⟨impossible, _⟩
    · exact idle
    · cases impossible
  · intro idle
    refine forall_mem_singleton.mpr fun u same => ⟨u, ?_⟩
    rw [← same] at lives idle
    obtain ⟨node, live⟩ := lives
    have read : query (fun graph => graph.op id) u = .ok node.op u :=
      runs_query.mpr ⟨(u.graph.op_eq_ok id _).mpr ⟨node, live.1, rfl⟩, rfl⟩
    refine runs_bind.mpr ⟨_, u, read, ?_⟩
    cases op : node.op with
    | create request =>
      rw [(u.graph.pending_iff id).mpr ⟨node, live, by rw [op]; rfl⟩] at idle
      cases idle
    | _ => rfl

theorem call_steady : (Reducer.creationCall heap).Steady where
  refuses s t id lives run := by
    rcases CreationCall.reduce_makes_call lives run with ⟨_, rfl, idle⟩ | ⟨impossible, _⟩
    · exact ⟨rfl, fun u same => (call_refuses_iff heap lives).mpr idle _ mem_cons_self u same⟩
    · cases impossible
  changes s t id again lives run := by
    rcases CreationCall.reduce_makes_call lives run with ⟨impossible, _⟩ | ⟨same, _⟩
    · cases impossible
    · cases same
      rfl
  rests s t id reduction lives run := by
    rcases CreationCall.reduce_makes_call lives run with ⟨_, rfl, _⟩ | ⟨_, called⟩
    · exact t.graph.rests_refl
    · exact rests_called called

theorem call_confined : Reducer.Confined [.creationCall heap] := by
  intro old new other again id rewritten apart _ before lives refused
  obtain ⟨reducer, listed, s, t, u, reduction, rfl, alive, changed, reduced, settled, rfl⟩ := rewritten
  cases mem_singleton.mp listed
  rcases CreationCall.reduce_makes_call alive reduced with ⟨same, _⟩ | ⟨rfl, called⟩
  · exact absurd same changed
  · rw [(Reducer.settle_changed _ other again t u settled).2] at lives ⊢
    have idle := (call_refuses_iff heap before).mp refused
    refine (call_refuses_iff heap lives).mpr (Bool.eq_false_iff.mpr fun waits => ?_)
    rw [((pending_called called id).mp waits).1] at idle
    cases idle

theorem calls_refused {s t : Workspace} {stats : ReductionStats} (run : Reducer.run [.creationCall heap] s = .ok stats t)
    (id : NodeId) (lives : t.graph.HasLive id) : Reducer.Refuses [.creationCall heap] t.graph id := by
  have steady := forall_mem_singleton.mpr (call_steady heap)
  exact Reducer.passed_refuses steady (call_confined heap) (Reducer.run_passed steady s t stats run id lives) lives

end

end SeaOfNodes
