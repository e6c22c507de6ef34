import SeaOfNodes.Proofs.Assembler.Effects

namespace SeaOfNodes

open List

variable {node : Node} {count next : UInt32} {id input : NodeId}

structure Widening (node : Node) (input : NodeId) (wide : Node) : Prop where
  joins : node.op.isMerge = true ∨ node.op.isPhi = true
  family : wide.op.family = node.op.family
  dead : wide.dead = node.dead
  fits : wide.op.fits = true
  counted : wide.inputs.length = wide.op.layout.total
  inputs : ∀ other ∈ wide.inputs, other ∈ node.inputs ∨ other = input
  controls : Graph.controlInputs wide = Graph.controlInputs node ++ if node.op.isMerge then [input] else []

theorem widening_merge (input : NodeId) {op : UInt32 → ControlOp} (same : node.op = .control (op count))
    (kind : op = .merge ∨ op = .loop) (sum : next.toNat = count.toNat + 1) (counted : node.inputs.length = node.op.layout.total) :
    Widening node input { node with inputs := node.inputs ++ [input], op := .control (op next) } := by
  have layout : ∀ count, (Operator.control (op count)).layout = .plain 0 0 count.toNat := by
    intro count
    rcases kind with rfl | rfl <;> rfl
  have merges : node.op.isMerge := by
    rw [same]
    rcases kind with rfl | rfl <;> rfl
  rw [same, layout] at counted
  exact
    { joins := .inl merges
      family := by rw [same]; rcases kind with rfl | rfl <;> rfl
      dead := rfl
      fits := by rw [Operator.fits, layout]; rfl
      counted := by
        rw [layout, length_append, counted]
        simp [InputLayout.total, InputLayout.firstControl, InputLayout.firstEffect, InputLayout.frameStateIndex,
          InputLayout.plain, sum]
      inputs := fun other member => (mem_append.mp member).imp id mem_singleton.mp
      controls := by
        rw [if_pos merges, Graph.controlInputs, Graph.controlInputs, same, layout, layout]
        rfl }

theorem drop_insert (inputs : List NodeId) (index : Nat) (input : NodeId) :
    (inputs.insertIdx index input).drop (index + 1) = inputs.drop index := by
  induction index generalizing inputs with
  | zero => rfl
  | succ index ih =>
    cases inputs with
    | nil => rfl
    | cons first rest => exact ih rest

theorem widening_phi (input : NodeId) {op : UInt32 → Operator} (same : node.op = op count)
    (kind : op = .effectPhi ∨ ∃ representation, op = .phi representation) (sum : next.toNat = count.toNat + 1)
    (counted : node.inputs.length = node.op.layout.total) :
    Widening node input { node with inputs := node.inputs.insertIdx count.toNat input, op := op next } := by
  have first : ∀ count, (op count).layout.firstControl = count.toNat := by
    intro count
    rcases kind with rfl | ⟨representation, rfl⟩
    · simp [Operator.layout, InputLayout.firstControl, InputLayout.firstEffect, InputLayout.frameStateIndex, InputLayout.plain]
    · simp [Operator.layout, InputLayout.firstControl, InputLayout.firstEffect, InputLayout.frameStateIndex, InputLayout.plain]
  have total : ∀ count, (op count).layout.total = count.toNat + 1 := by
    intro count
    rw [InputLayout.total, first]
    rcases kind with rfl | ⟨representation, rfl⟩ <;> rfl
  have values : ∀ count, (op count).fits := by
    intro count
    rcases kind with rfl | ⟨representation, rfl⟩
    · rfl
    · exact decide_eq_true count.toNat_lt_size
  have plain : node.op.isMerge = false := by
    rw [same]
    rcases kind with rfl | ⟨representation, rfl⟩ <;> rfl
  rw [same, total] at counted
  exact
    { joins := .inr (by rw [same]; rcases kind with rfl | ⟨representation, rfl⟩ <;> rfl)
      family := by rw [same]; rcases kind with rfl | ⟨representation, rfl⟩ <;> rfl
      dead := rfl
      fits := values next
      counted := by rw [total, length_insertIdx_of_le_length (by omega), counted, sum]
      inputs := fun other member => (eq_or_mem_of_mem_insertIdx member).symm
      controls := by
        rw [plain, Graph.controlInputs, Graph.controlInputs, same, first, first, sum, drop_insert]
        simp }

theorem merge_starts_block {op : Operator} (merges : op.isMerge) : op.startsBlock := by
  cases op with
  | control kind =>
    cases kind with
    | merge count => rfl
    | loop count => rfl
    | _ => cases merges
  | _ => cases merges

namespace Graph

-- A control input that is new leads on, and every other input was there or is the new path.
theorem wired_widening (graph : Graph) {next : Graph} (wired : graph.Wired) {wide : Node} (read : graph.node? id = some node)
    (inner : id ≠ stop) (widening : Widening node input wide) (size : next.size = graph.size)
    (nodes : ∀ other, next.node? other = if other = id then some wide else graph.node? other)
    (table : next.constants = graph.constants) (named : graph.Named input)
    (leads : node.op.isMerge → graph.Carries Operator.continues input) :
    next.Wired ∧ Grown graph next ∧
      (∀ other, next.Carries Operator.isControl other → graph.Carries Operator.isControl other) ∧
      (node.op.isMerge → next.Used input) := by
  have old := wired.nodes id node read
  have controls : ∀ other ∈ controlInputs node, other ∈ controlInputs wide := by
    intro other member
    rw [widening.controls]
    exact mem_append_left _ member
  have grown := grown_update read size nodes widening.family controls
  have joins : wide.op.isMerge ∨ wide.op.isPhi = true :=
    widening.joins.imp (is_merge_by_family _ _ widening.family).trans (is_phi_by_family _ _ widening.family).trans
  refine ⟨wired_update wired read size nodes widening.family controls table ?_ ?_, grown, ?_, ?_⟩
  · exact
      { live := widening.dead.trans old.live
        fits := widening.fits
        counted := fun _ => widening.counted
        named := fun other member => by
          rcases widening.inputs other member with former | rfl
          · exact grown.named (old.named other former)
          · exact grown.named named
        earlier := fun _ starts phi => by
          rcases joins with impossible | impossible
          · rw [merge_starts_block impossible] at starts
            cases starts
          · rw [phi] at impossible
            cases impossible
        controls := fun _ other member => by
          rw [widening.controls, mem_append, mem_ite_nil_right, mem_singleton] at member
          rcases member with former | ⟨merges, rfl⟩
          · exact grown.carries _ continues_by_family other (old.controls inner other former)
          · exact grown.carries _ continues_by_family other (leads merges)
        single := fun starts => by
          rw [starts] at joins
          rcases joins with impossible | impossible <;> cases impossible
        exit := fun last => absurd last inner }
  · exact fun last => absurd last inner
  · rintro other ⟨found, there, control⟩
    rw [nodes] at there
    split at there
    · rename_i same
      cases there
      exact ⟨node, same ▸ read, (is_control_by_family _ _ widening.family).symm.trans control⟩
    · exact ⟨found, there, control⟩
  · intro merges
    refine ⟨id, wide, by rw [nodes, if_pos rfl], ?_⟩
    rw [widening.controls, if_pos merges]
    exact mem_append_right _ mem_cons_self

theorem node_rewrite (graph : Graph) (input : NodeId) (read : graph.node? id = some node) {first second : Node → Node}
    (other : NodeId) :
    (((graph.modifyNode id first).addUse input id).modifyNode id second).node? other =
      if other = id then some (second (first node)) else graph.node? other := by
  rw [node_modify]
  split
  · rw [node_add_use, node_modify, if_pos rfl, read]
    rfl
  · rename_i different
    rw [node_add_use, node_modify, if_neg different]

end Graph

namespace Assembly

variable {result : Unit} {info label : LabelInfo} {binding : Binding}

open Assembler

variable {held : List NodeId} {a b : Assembler}

inductive Lengthens (input : NodeId) (node : Node) : Node → Prop
  | merge (count more : UInt32) (op : UInt32 → ControlOp) (kind : op = .merge ∨ op = .loop) (same : node.op = .control (op count))
      (sum : more.toNat = count.toNat + 1) :
      Lengthens input node { node with inputs := node.inputs ++ [input], op := .control (op more) }
  | phi (count more : UInt32) (op : UInt32 → Operator) (kind : op = .effectPhi ∨ ∃ representation, op = .phi representation)
      (same : node.op = op count) (sum : more.toNat = count.toNat + 1) :
      Lengthens input node { node with inputs := node.inputs.insertIdx count.toNat input, op := op more }

theorem add_path_cases (run : addPath id input a = .ok result b) :
    ∃ node, a.graph.node? id = some node ∧ (b = a ∧ node.op.isMerge = false ∧ node.op.isPhi = false ∨
      ∃ wide next, Lengthens input node wide ∧ b = { a with graph := next } ∧ next.size = a.graph.size ∧
        next.constants = a.graph.constants ∧ ∀ other, next.node? other = if other = id then some wide else a.graph.node? other) := by
  simp only [addPath, runs_of_build, runs_bind, Build.runs_query, Graph.op_eq_ok] at run
  obtain ⟨_, ⟨_, _, ⟨⟨node, read, rfl⟩, rfl⟩, rest⟩, rfl⟩ := run
  refine ⟨node, read, ?_⟩
  cases shape : node.op with
  | control kind =>
    cases kind with
    | merge count | loop count =>
      simp only [shape, runs_bind, Build.runs_change, Build.runs_of_except, checkedAdd_eq_ok, Operator.withArity?,
        Graph.appendInput, Graph.changeOp, bind_eq_ok, pure_eq_ok] at rest
      obtain ⟨_, _, ⟨_, ⟨_, _, rfl⟩, rfl⟩, next, _, ⟨sum, rfl⟩, _, ⟨_, _, rfl⟩, rfl⟩ := rest
      exact .inr ⟨_, _, .merge count next _ (by simp) shape sum, rfl, by simp, rfl, a.graph.node_rewrite input read⟩
    | _ =>
      rw [shape] at rest
      cases rest
      exact .inl ⟨rfl, rfl, rfl⟩
  | phi representation count =>
    simp only [shape, runs_bind, Build.runs_change, Build.runs_of_except, checkedAdd_eq_ok, Operator.withArity?,
      Graph.insertInput, Graph.changeOp, bind_eq_ok, pure_eq_ok] at rest
    obtain ⟨_, _, ⟨_, ⟨_, _, _, _, rfl⟩, rfl⟩, next, _, ⟨sum, rfl⟩, _, ⟨_, _, rfl⟩, rfl⟩ := rest
    exact .inr ⟨_, _, .phi count next (.phi representation) (.inr ⟨_, rfl⟩) shape sum, rfl, by simp, rfl,
      a.graph.node_rewrite input read⟩
  | effectPhi count =>
    simp only [shape, runs_bind, Build.runs_change, Build.runs_of_except, checkedAdd_eq_ok, Operator.withArity?,
      Graph.insertInput, Graph.changeOp, bind_eq_ok, pure_eq_ok] at rest
    obtain ⟨_, _, ⟨_, ⟨_, _, _, _, rfl⟩, rfl⟩, next, _, ⟨sum, rfl⟩, _, ⟨_, _, rfl⟩, rfl⟩ := rest
    exact .inr ⟨_, _, .phi count next .effectPhi (.inl rfl) shape sum, rfl, by simp, rfl, a.graph.node_rewrite input read⟩
  | _ =>
    rw [shape] at rest
    cases rest
    exact .inl ⟨rfl, rfl, rfl⟩

theorem add_path_runs (wired : a.graph.Wired) (run : addPath id input a = .ok result b) :
    ∃ node, a.graph.node? id = some node ∧ (b = a ∧ node.op.isMerge = false ∨
      ∃ wide next, Widening node input wide ∧ b = { a with graph := next } ∧ next.size = a.graph.size ∧
        next.constants = a.graph.constants ∧ id ≠ Graph.stop ∧
        ∀ other, next.node? other = if other = id then some wide else a.graph.node? other) := by
  obtain ⟨node, read, ⟨same, plain, _⟩ | ⟨wide, next, lengthens, made, size, table, nodes⟩⟩ := add_path_cases run
  · exact ⟨node, read, .inl ⟨same, plain⟩⟩
  have inner : node.op.isMerge ∨ node.op.isPhi → id ≠ Graph.stop := by
    rintro joins last
    rw [((wired.nodes id node read).exit last).1] at joins
    rcases joins with impossible | impossible <;> cases impossible
  have counted : node.op.isMerge ∨ node.op.isPhi → node.inputs.length = node.op.layout.total :=
    fun joins => (wired.nodes id node read).counted (inner joins)
  have widening : Widening node input wide := by
    cases lengthens with
    | merge count more op kind same sum =>
      exact widening_merge input same kind sum (counted (.inl (by rw [same]; rcases kind with rfl | rfl <;> rfl)))
    | phi count more op kind same sum =>
      exact widening_phi input same kind sum
        (counted (.inr (by rw [same]; rcases kind with rfl | ⟨representation, rfl⟩ <;> rfl)))
  exact ⟨node, read, .inr ⟨wide, next, widening, made, size, table, inner widening.joins, nodes⟩⟩

theorem add_path_sound (sound : Sound held a) (named : a.graph.Named input)
    (leads : a.graph.Carries Operator.isMerge id → a.graph.Carries Operator.continues input)
    (run : addPath id input a = .ok result b) :
    Sound held b ∧ Graph.Grown a.graph b.graph ∧ b.current = a.current ∧
      (a.graph.Carries Operator.isMerge id → b.graph.Used input) := by
  obtain ⟨node, read, ⟨rfl, plain⟩ | ⟨wide, next, widening, rfl, size, table, inner, nodes⟩⟩ :=
    add_path_runs sound.wired run
  · refine ⟨sound, b.graph.grown_refl, rfl, ?_⟩
    rintro ⟨other, again, merges⟩
    rw [read] at again
    cases again
    rw [plain] at merges
    cases merges
  · obtain ⟨wired, grown, old, used⟩ := a.graph.wired_widening sound.wired read inner widening size
      nodes table named fun merges => leads ⟨node, read, merges⟩
    refine ⟨?_, grown, rfl, ?_⟩
    · exact sound.regraph ⟨next, a.registry, a.journal⟩ wired grown sound.recording (fun calm => calm) []
        fun other control => .inl (old other control)
    · rintro ⟨other, again, merges⟩
      rw [read] at again
      cases again
      exact used merges

theorem live_variable_read {entry : VariableId × VariableInfo} (live : entry ∈ a.liveVariables) :
    a.vars.get? entry.1 = some entry.2 :=
  (a.vars.mem_entries entry.1 entry.2).mp (mem_filter.mp live).1

-- One more jump waits at a label.
theorem await_sound {id : LabelId} {arrivals : List Arrival} {arrival : Arrival} (read : a.labels.get? id = some info)
    (state : info.state = .waiting arrivals) (sound : Sound (arrival.position.control :: held) a)
    (arrives : ArrivalSound a.graph arrival) : Sound held { a with labels := a.labels.modify id fun info =>
      { info with state := .waiting (arrivals ++ [arrival]) } } := by
  have there : (a.labels.modify id fun info => { info with state := .waiting (arrivals ++ [arrival]) }).get? id =
      some { info with state := .waiting (arrivals ++ [arrival]) } := by
    rw [Pool.get_modify, if_pos rfl, read]
    rfl
  refine sound.relabel held ?_ ?_ ?_
  · intro other found waiting reads holds
    rw [Pool.get_modify] at reads
    split at reads
    · rw [read] at reads
      cases reads
      cases holds
      exact forall_mem_append.mpr ⟨sound.waiting id info arrivals read state, forall_mem_singleton.mpr arrives⟩
    · exact sound.waiting other found waiting reads holds
  · intro other found binding reads holds
    rw [Pool.get_modify] at reads
    split at reads
    · rw [read] at reads
      cases reads
      cases holds
    · exact sound.bound other found binding reads holds
  · rintro control (inHand | here | ⟨other, found, waiting, last, reads, holds, member, same⟩)
    · rcases mem_cons.mp inHand with first | later
      · exact .inr (.inr (.inr ⟨id, _, _, arrival, there, rfl, mem_append_right _ mem_cons_self, first.symm⟩))
      · exact .inr (.inl later)
    · exact .inr (.inr (.inl here))
    · by_cases this : other = id
      · rw [this, read] at reads
        cases reads
        rw [state] at holds
        cases holds
        exact .inr (.inr (.inr ⟨id, _, _, last, there, rfl, mem_append_left _ member, same⟩))
      · refine .inr (.inr (.inr ⟨other, found, waiting, last, ?_, holds, member, same⟩))
        rw [Pool.get_modify, if_neg this]
        exact reads

-- A label is bound; the jumps that waited at it have to lead on or are in hand.
theorem settle_sound {id : LabelId} (binding : Binding) (more : List NodeId) (read : a.labels.get? id = some info)
    (sound : Sound held a) (binds : BindingSound a.graph binding) (kept : ∀ control ∈ held, control ∈ more) (freed : ∀ arrivals,
      info.state = .waiting arrivals → ∀ arrival ∈ arrivals, a.graph.Used arrival.position.control ∨ arrival.position.control ∈
      more) : Sound more { a with labels := a.labels.modify id fun info => { info with state := .bound binding } } := by
  refine sound.relabel more ?_ ?_ ?_
  · intro other found waiting reads holds
    rw [Pool.get_modify] at reads
    split at reads
    · rw [read] at reads
      cases reads
      cases holds
    · exact sound.waiting other found waiting reads holds
  · intro other found last reads holds
    rw [Pool.get_modify] at reads
    split at reads
    · rw [read] at reads
      cases reads
      cases holds
      exact binds
    · exact sound.bound other found last reads holds
  · rintro control (inHand | here | ⟨other, found, waiting, last, reads, holds, member, same⟩)
    · exact .inr (.inl (kept control inHand))
    · exact .inr (.inr (.inl here))
    · by_cases this : other = id
      · rw [this, read] at reads
        cases reads
        exact same ▸ (freed waiting holds last member).imp (fun used => used) .inl
      · refine .inr (.inr (.inr ⟨other, found, waiting, last, ?_, holds, member, same⟩))
        rw [Pool.get_modify, if_neg this]
        exact reads

theorem phi_not_merge {graph : Graph} (phi : graph.Carries Operator.isPhi id) (merges : graph.Carries Operator.isMerge id) :
    False := by
  obtain ⟨node, read, isPhi⟩ := phi
  obtain ⟨other, again, isMerge⟩ := merges
  rw [read] at again
  cases again
  revert isPhi isMerge
  cases node.op with
  | control kind => exact fun impossible => by cases impossible
  | _ => exact fun _ impossible => by cases impossible

theorem add_path_phi {phi : NodeId} (sound : Sound held a) (named : a.graph.Named input)
    (carries : a.graph.Carries Operator.isPhi phi) (run : addPath phi input a = .ok result b) :
    Sound held b ∧ Graph.Grown a.graph b.graph ∧ b.current = a.current := by
  obtain ⟨kept, grown, current, _⟩ := add_path_sound sound named (fun merges => (phi_not_merge carries merges).elim) run
  exact ⟨kept, grown, current⟩

theorem merge_back_cases {id : VariableId} {info : VariableInfo} (run : mergeBack label binding id info a = .ok result b) :
    (∃ phi value, binding.phis.lookup id = some phi ∧ info.value = some value ∧ addPath phi value a = .ok result b) ∨
      (∃ violation, report violation a = .ok result b) ∨ binding.phis.lookup id = none ∧ b = a := by
  cases found : binding.phis.lookup id with
  | some phi =>
    cases bound : info.value with
    | some value =>
      simp only [mergeBack, found, bound] at run
      exact .inl ⟨phi, value, rfl, rfl, run⟩
    | none =>
      simp only [mergeBack, found, bound, runs_bind, runs_of_build, Build.runs_query] at run
      obtain ⟨_, _, ⟨_, ⟨_, rfl⟩, rfl⟩, done⟩ := run
      exact .inr (.inl ⟨_, done⟩)
  | none =>
    right
    cases bound : info.value with
    | some value =>
      simp only [mergeBack, found, bound, checks, runs_bind, runs_get, runs_pure] at run
      obtain ⟨_, _, ⟨_, _, ⟨rfl, rfl⟩, rfl, rfl⟩, rest⟩ := run
      split at rest
      · cases former : binding.values.lookup id with
        | some other =>
          simp only [former] at rest
          split at rest
          · exact .inl ⟨_, rest⟩
          · exact .inr ⟨rfl, (runs_pure.mp rest).2.symm⟩
        | none =>
          rw [former] at rest
          exact .inr ⟨rfl, (runs_pure.mp rest).2.symm⟩
      · exact .inr ⟨rfl, (runs_pure.mp rest).2.symm⟩
    | none =>
      simp only [mergeBack, found, bound] at run
      exact .inr ⟨rfl, (runs_pure.mp run).2.symm⟩

theorem merge_back_sound {id : VariableId} {info : VariableInfo} (sound : Sound held a) (binds : BindingSound a.graph binding)
    (named : ∀ value, info.value = some value → a.graph.Named value) (run : mergeBack label binding id info a = .ok result b) :
    Sound held b ∧ Graph.Grown a.graph b.graph ∧ b.current = a.current := by
  rcases merge_back_cases run with ⟨phi, value, found, bound, led⟩ | ⟨violation, done⟩ | ⟨_, rfl⟩
  · exact add_path_phi sound (named value bound) (binds.2 (id, phi) (mem_of_lookup _ _ found)) led
  · obtain ⟨kept, graph, current, _⟩ := report_sound held sound done
    exact ⟨kept, graph ▸ a.graph.grown_refl, current⟩
  · exact ⟨sound, b.graph.grown_refl, rfl⟩

theorem merge_back_run {live : List (VariableId × VariableInfo)} (sound : Sound held a) (binds : BindingSound a.graph binding)
    (named : ∀ entry ∈ live, ∀ value, entry.2.value = some value → a.graph.Named value)
    (run : (live.forM fun (id, current) => mergeBack label binding id current) a = .ok result b) :
    Sound held b ∧ Graph.Grown a.graph b.graph ∧ b.current = a.current := by
  induction live generalizing a with
  | nil =>
    obtain ⟨_, rfl⟩ := runs_pure.mp run
    exact ⟨sound, a.graph.grown_refl, rfl⟩
  | cons entry rest ih =>
    obtain ⟨_, middle, first, later⟩ := runs_bind.mp run
    obtain ⟨kept, grown, current⟩ := merge_back_sound sound binds (named entry mem_cons_self) first
    obtain ⟨final, further, same⟩ := ih kept (binding_grown grown binds)
      (fun other member value bound => grown.named (named other (mem_cons_of_mem _ member) value bound)) later
    exact ⟨final, grown.trans further, same.trans current⟩

theorem loop_node_runs {loop : Option NodeId} (run : loopNode? binding a = .ok loop b) :
    b = a ∧ ∀ id, loop = some id → a.graph.Carries Operator.isMerge id := by
  have rests : (pure none : Assembly (Option NodeId)) a = .ok loop b →
      b = a ∧ ∀ id, loop = some id → a.graph.Carries Operator.isMerge id := by
    intro done
    cases done
    exact ⟨rfl, fun _ impossible => by cases impossible⟩
  cases found : binding.merge with
  | none =>
    simp only [loopNode?, found] at run
    exact rests run
  | some merge =>
    simp only [loopNode?, found, runs_bind, runs_of_build, Build.runs_query, Graph.op_eq_ok] at run
    obtain ⟨_, _, ⟨_, ⟨⟨node, read, rfl⟩, rfl⟩, rfl⟩, rest⟩ := run
    cases shape : node.op with
    | control kind =>
      rw [shape] at rest
      cases kind with
      | loop count =>
        cases rest
        refine ⟨rfl, fun id same => ?_⟩
        cases same
        exact ⟨node, read, by rw [shape]; rfl⟩
      | _ => exact rests rest
    | _ =>
      rw [shape] at rest
      exact rests rest

theorem label_info_runs {id : LabelId} (run : labelInfo id a = .ok info b) : a.labels.get? id = some info ∧ a = b := by
  simp only [labelInfo, runs_bind, runs_get, runs_of_except, Pool.get] at run
  obtain ⟨_, _, ⟨rfl, rfl⟩, found, rfl⟩ := run
  exact ⟨present_eq_ok.mp found, rfl⟩

theorem arrive_sound {id : LabelId} (position : Position) (sound : Sound (position.control :: held) a)
    (standing : Standing a.graph position) (run : arrive id position a = .ok result b) :
    Sound held b ∧ Graph.Grown a.graph b.graph ∧ b.current = a.current := by
  simp only [arrive, setLabelState, runs_bind, runs_get] at run
  obtain ⟨info, _, labelled, _, _, ⟨rfl, rfl⟩, rest⟩ := run
  obtain ⟨read, rfl⟩ := label_info_runs labelled
  have named : ∀ entry ∈ a.liveVariables, ∀ value, entry.2.value = some value → a.graph.Named value :=
    fun entry live value bound => sound.values entry.1 entry.2 value (live_variable_read live) bound
  cases state : info.state with
  | waiting arrivals =>
    simp only [state, runs_modify] at rest
    subst rest
    refine ⟨await_sound read state sound ⟨standing, fun entry member => ?_⟩, a.graph.grown_refl, rfl⟩
    obtain ⟨⟨var, found⟩, live, same⟩ := mem_filterMap.mp member
    obtain ⟨value, bound, rfl⟩ := Option.map_eq_some_iff.mp same
    exact named (var, found) live value bound
  | bound binding =>
    simp only [state, runs_bind, runs_modify] at rest
    obtain ⟨_, _, rfl, loop, _, looked, rest⟩ := rest
    obtain ⟨rfl, merges⟩ := loop_node_runs looked
    have binds : BindingSound a.graph { binding with paths := binding.paths + 1 } := sound.bound id info binding read state
    have kept := settle_sound { binding with paths := binding.paths + 1 } (position.control :: held) read sound binds
      (fun _ member => member) (fun arrivals waiting => by rw [state] at waiting; cases waiting)
    cases loop with
    | none =>
      obtain ⟨final, graph, current, _⟩ := report_sound held kept rest
      exact ⟨final, graph ▸ a.graph.grown_refl, current⟩
    | some loop =>
      simp only [runs_bind] at rest
      obtain ⟨_, after, joined, rest⟩ := rest
      have through := a.graph.wired_named sound.wired standing.2 fun _ => rfl
      obtain ⟨wide, grown, current, used⟩ := add_path_sound kept through (fun _ => standing.2) joined
      have freed := wide.narrow held fun control inHand => by
        rcases mem_cons.mp inHand with first | later
        · exact .inr (first ▸ used (merges loop rfl))
        · exact .inl later
      have still := binding_grown grown binds
      have lives : ∀ entry ∈ a.liveVariables, ∀ value, entry.2.value = some value → after.graph.Named value :=
        fun entry live value bound => grown.named (named entry live value bound)
      cases effect : binding.effectPhi with
      | none =>
        simp only [effect] at rest
        have finish := fun binds => merge_back_run freed binds lives rest
        obtain ⟨final, further, same⟩ := finish ⟨fun _ impossible => (by cases impossible), still.2⟩
        exact ⟨final, grown.trans further, same.trans current⟩
      | some phi =>
        simp only [effect, runs_bind] at rest
        obtain ⟨_, next, threaded, rest⟩ := rest
        obtain ⟨longer, more, here⟩ := add_path_phi freed (grown.named standing.1) (still.1 phi effect) threaded
        have finish := fun binds => merge_back_run longer binds
          (fun entry live value bound => more.named (lives entry live value bound)) rest
        have wider := binding_grown more still
        obtain ⟨final, further, same⟩ := finish ⟨fun other same => Option.some.inj same ▸ wider.1 phi effect, wider.2⟩
        exact ⟨final, grown.trans (more.trans further), same.trans (here.trans current)⟩

end Assembly

end SeaOfNodes
