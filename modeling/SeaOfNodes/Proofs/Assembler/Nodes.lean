import SeaOfNodes.Proofs.Assembler.Sound

namespace SeaOfNodes

open List Build SeaOfNodes.Graph

variable {test : Operator → Bool} {next : Graph}

namespace Graph

variable {terminator : NodeId}

-- Type and breakpoint of a node are of no concern to its wiring.
theorem wired_restyle (graph : Graph) (wired : graph.Wired) (id : NodeId) (change : Node → Node)
    (op : ∀ node, (change node).op = node.op) (inputs : ∀ node, (change node).inputs = node.inputs)
    (dead : ∀ node, (change node).dead = node.dead) :
    (graph.modifyNode id change).Wired ∧ Grown graph (graph.modifyNode id change) := by
  cases read : graph.node? id with
  | none =>
    have same : ∀ other, (graph.modifyNode id change).node? other = graph.node? other := by
      intro other
      rw [node_modify]
      split
      · rename_i equal
        rw [equal, read]
        rfl
      · rfl
    exact graph.wired_same_nodes _ wired same (graph.size_modify id change) wired.constants
  | some node =>
    have nodes : ∀ other, (graph.modifyNode id change).node? other =
        if other = id then some (change node) else graph.node? other := by
      intro other
      rw [node_modify, read]
      rfl
    have family : (change node).op.family = node.op.family := by rw [op]
    have controls : controlInputs (change node) = controlInputs node := by rw [controlInputs, op, inputs, controlInputs]
    have kept : ∀ input ∈ controlInputs node, input ∈ controlInputs (change node) := fun _ member => controls ▸ member
    have grown := grown_update read (graph.size_modify id change) nodes family kept
    have old := node_wired_grown grown (wired.nodes id node read)
    refine ⟨wired_update wired read (graph.size_modify id change) nodes family kept rfl ?_ ?_, grown⟩
    · exact
        { live := (dead node).trans old.live
          fits := by rw [op]; exact old.fits
          counted := by rw [op, inputs]; exact old.counted
          named := by rw [inputs]; exact old.named
          earlier := by rw [op, inputs]; exact old.earlier
          controls := by rw [controls]; exact old.controls
          single := by rw [op]; exact old.single
          exit := by rw [op, inputs]; exact old.exit }
    · intro last
      rw [inputs, ← graph.inputs_of_eq id node read, last]
      exact wired.room

theorem carries_restyle (graph : Graph) (id other : NodeId) (change : Node → Node) (op : ∀ node, (change node).op = node.op) :
    (graph.modifyNode id change).Carries test other ↔ graph.Carries test other := by
  rw [Carries, Carries, node_modify]
  by_cases same : other = id
  · subst same
    cases read : graph.node? other with
    | none => simp
    | some node => simp [op]
  · simp [same]

theorem merge_to_end_nodes (graph : Graph) {next : Graph} (made : graph.mergeToEnd terminator = .ok next) :
    ∃ node, graph.node? stop = some node ∧ next.size = graph.size ∧ next.constants = graph.constants ∧
      ∀ other, next.node? other = if other = stop then some { node with
        inputs := node.inputs ++ [terminator]
        op := .control (.stop (UInt32.ofNat (node.inputs.length + 1))) } else graph.node? other := by
  simp only [mergeToEnd, appendInput, bind_eq_ok, node_eq_ok, pure_eq_ok] at made
  obtain ⟨_, ⟨node, read, rfl⟩, rfl⟩ := made
  refine ⟨node, read, by simp, rfl, fun other => ?_⟩
  rw [node_modify]
  split
  · rw [node_add_use, node_modify, if_pos rfl, read]
    simp
  · rename_i different
    rw [node_add_use, node_modify, if_neg different]

theorem merge_to_end_wired (graph : Graph) {next : Graph} (wired : graph.Wired) (named : graph.Named terminator)
    (carries : graph.Carries Operator.isControl terminator) (room : (graph.inputsOf stop).length + 2 < graph.size)
    (made : graph.mergeToEnd terminator = .ok next) :
    next.Wired ∧ Grown graph next ∧ next.Used terminator ∧
      ∀ other, next.Carries Operator.isControl other → graph.Carries Operator.isControl other := by
  obtain ⟨node, read, size, table, nodes⟩ := graph.merge_to_end_nodes made
  have old := wired.nodes stop node read
  have shape := (old.exit rfl).1
  have family : (Operator.control (.stop (UInt32.ofNat (node.inputs.length + 1)))).family = node.op.family := by
    rw [shape]
    rfl
  have controls : ∀ input ∈ controlInputs node, input ∈ controlInputs { node with
      inputs := node.inputs ++ [terminator]
      op := .control (.stop (UInt32.ofNat (node.inputs.length + 1))) } := by
    intro input member
    exact mem_append_left [terminator] (mem_of_mem_drop member)
  have grown := grown_update read size nodes family controls
  refine ⟨wired_update wired read size nodes family controls table ?_ ?_, grown, ?_, ?_⟩
  · exact
      { live := old.live
        fits := rfl
        counted := fun impossible => absurd rfl impossible
        named := forall_mem_append.mpr
          ⟨fun input former => grown.named (old.named input former), forall_mem_singleton.mpr (grown.named named)⟩
        earlier := fun impossible => absurd rfl impossible
        controls := fun impossible => absurd rfl impossible
        single := fun impossible => by cases impossible
        exit := fun _ => ⟨by simp, forall_mem_append.mpr
          ⟨fun input former => grown.carries _ is_control_by_family input ((old.exit rfl).2 input former),
            forall_mem_singleton.mpr (grown.carries _ is_control_by_family _ carries)⟩⟩ }
  · intro _
    rw [graph.inputs_of_eq stop node read] at room
    simp
    omega
  · exact ⟨stop, _, by rw [nodes, if_pos rfl], mem_append_right node.inputs mem_cons_self⟩
  · rintro other ⟨found, there, control⟩
    rw [nodes] at there
    split at there
    · cases there
      cases control
    · exact ⟨found, there, control⟩

end Graph

namespace Assembly

variable {violation : Violation} {result : Unit} {graph : Graph} {value : Constant} {id : NodeId} {op : Operator}
  {inputs : List NodeId}

open Assembler

variable {held : List NodeId} {a b : Assembler}

theorem report_runs (run : report violation a = .ok result b) :
    a.journal.mode ≠ .validating ∧ b = { a with journal := (a.journal.report violation).2 } := by
  obtain ⟨work, done, rfl⟩ := runs_of_build.mp run
  obtain ⟨tolerant, rfl⟩ := report_runs done
  exact ⟨tolerant, rfl⟩

theorem report_sound (more : List NodeId) (sound : Sound held a) (run : report violation a = .ok result b) :
    Sound more b ∧ b.graph = a.graph ∧ b.current = a.current ∧ b.labels = a.labels ∧ ¬ b.Quiet := by
  obtain ⟨_, rfl⟩ := report_runs run
  have loud : ¬ Quiet { a with journal := (a.journal.report violation).2 } := by
    simp [Quiet, Journal.report, sound.recording]
  refine ⟨?_, rfl, rfl, rfl, loud⟩
  exact
    { recording := by simp [Journal.report, sound.recording, Journal.note]
      wired := sound.wired
      current := sound.current
      values := sound.values
      waiting := sound.waiting
      bound := sound.bound
      pending := fun quiet => absurd quiet loud }

theorem preserves_report (inputs : List NodeId) (violation : Violation) : Preserves inputs (report violation) fun _ => [] := by
  intro held a result b sound _ run
  obtain ⟨kept, graph, _⟩ := report_sound held sound run
  exact ⟨kept, graph ▸ a.graph.grown_refl, by simp⟩

theorem restyle_sound (id : NodeId) (change : Node → Node) (journal : Journal) (op : ∀ node, (change node).op = node.op)
    (inputs : ∀ node, (change node).inputs = node.inputs) (dead : ∀ node, (change node).dead = node.dead)
    (mode : journal.mode = a.journal.mode) (violations : journal.violations = a.journal.violations) (sound : Sound held a) :
    Sound held { a with graph := a.graph.modifyNode id change, journal := journal } ∧
      Grown a.graph (a.graph.modifyNode id change) := by
  obtain ⟨wired, grown⟩ := a.graph.wired_restyle sound.wired id change op inputs dead
  have kept := sound.regraph ⟨a.graph.modifyNode id change, a.registry, journal⟩ wired grown (mode.trans sound.recording)
    (fun calm => violations.symm.trans calm) [] fun other control =>
      .inl ((a.graph.carries_restyle id other change op).mp control)
  exact ⟨kept, grown⟩

theorem constant_wired (wired : graph.Wired) {next : Graph} (made : graph.constant value = (id, next)) :
    next.Wired ∧ Grown graph next ∧ next.Carries Operator.isConstant id ∧
      ∀ other, next.Carries Operator.isControl other → graph.Carries Operator.isControl other := by
  rw [Graph.constant] at made
  split at made
  · rename_i found present
    cases made
    obtain ⟨there, _⟩ := Option.filter_eq_some_iff.mp present
    exact ⟨wired, graph.grown_refl, wired.constants (value, id) (mem_of_lookup _ _ there), fun _ carries => carries⟩
  · cases made
    have fresh := graph.node_push { op := .constant value, inputs := [] }
    have grown := graph.grown_push { op := .constant value, inputs := [] }
    have made : (graph.push { op := .constant value, inputs := [] }).2.Carries Operator.isConstant graph.size :=
      ⟨_, by rw [fresh, if_pos rfl], rfl⟩
    have pushed := graph.wired_push wired (.constant value) [] rfl rfl (by simp) (by simp) (by simp)
    obtain ⟨final, further⟩ := wired_same_nodes _ { (graph.push { op := .constant value, inputs := [] }).2 with
      constants := (value, graph.size) :: (graph.push { op := .constant value, inputs := [] }).2.constants.filter
        fun entry => entry.1 ≠ value } pushed (fun _ => rfl) rfl (forall_mem_cons.mpr
          ⟨made, fun entry old => pushed.constants entry (mem_filter.mp old).1⟩)
    refine ⟨final, grown.trans further, made, ?_⟩
    · rintro other ⟨node, read, control⟩
      change (graph.push { op := .constant value, inputs := [] }).2.node? other = some node at read
      rw [fresh] at read
      split at read
      · cases read
        cases control
      · exact ⟨node, read, control⟩

theorem typed_constant_wired {type : ValueType} (wired : graph.Wired) (made : graph.typedConstant value type = (id, next)) :
    next.Wired ∧ Grown graph next ∧ next.Carries Operator.isConstant id ∧
      ∀ other, next.Carries Operator.isControl other → graph.Carries Operator.isControl other := by
  cases found : graph.constant value with
  | mk own plain =>
    rw [typedConstant, found] at made
    cases made
    obtain ⟨before, grown, carries, old⟩ := constant_wired wired found
    obtain ⟨final, further⟩ := plain.wired_restyle before id (fun node => { node with type := type })
      (fun _ => rfl) (fun _ => rfl) fun _ => rfl
    refine ⟨final, grown.trans further, further.carries _ is_constant_by_family _ carries, fun other control => ?_⟩
    exact old other ((plain.carries_restyle id other (fun node => { node with type := type }) fun _ => rfl).mp control)

theorem preserves_constant (inputs : List NodeId) (value : Constant) : Preserves inputs (constant value) fun id => [id] := by
  intro held a id b sound _ run
  obtain ⟨_, done, rfl⟩ := runs_of_build.mp run
  obtain ⟨graph, made, rfl⟩ := runs_edit.mp done
  have shape : graph.Wired ∧ Grown a.graph graph ∧ graph.Carries Operator.isConstant id ∧
      ∀ other, graph.Carries Operator.isControl other → a.graph.Carries Operator.isControl other := by
    have same := Except.ok.inj made
    cases value with
    | int32 number | number number => exact typed_constant_wired sound.wired same
    | _ => exact constant_wired sound.wired same
  obtain ⟨wired, grown, carries, old⟩ := shape
  refine ⟨sound.regraph ⟨graph, a.registry, a.journal⟩ wired grown sound.recording (fun calm => calm) []
    fun other control => .inl (old other control), grown, ?_⟩
  intro other member
  cases mem_singleton.mp member
  exact graph.wired_named wired carries fun _ => rfl

structure Added (op : Operator) (inputs : List NodeId) (id : NodeId) (a b : Assembler) : Prop where
  grown : Graph.Grown a.graph b.graph
  fresh : id = a.graph.size
  node : ∃ node, b.graph.node? id = some node ∧ node.op = op ∧ node.inputs = inputs
  counted : inputs.length = op.layout.total
  exits : b.graph.inputsOf Graph.stop = a.graph.inputsOf Graph.stop
  current : b.current = a.current
  vars : b.vars = a.vars
  labels : b.labels = a.labels
  calm : b.Quiet → a.Quiet

-- A breakpoint is set on one node, or nothing happens.
theorem mark_breakpoint_runs (run : markBreakpoint id a = .ok result b) : b = a ∨ ∃ entry, b = { a with
      graph := a.graph.modifyNode id fun node => { node with breakpoint := true }
      journal := a.journal.note entry } := by
  simp only [markBreakpoint, runs_bind, runs_get] at run
  obtain ⟨_, _, ⟨rfl, rfl⟩, rest⟩ := run
  split at rest
  · simp only [runs_bind, runs_of_build, runs_query, runs_note, runs_change] at rest
    obtain ⟨op, _, ⟨_, ⟨_, rfl⟩, rfl⟩, _, ⟨_, _, rfl, _, same, rfl⟩, rfl⟩ := rest
    cases same
    exact .inr ⟨.breakpoint id op, rfl⟩
  · exact .inl (runs_pure.mp rest).2.symm

theorem mark_breakpoint_sound (sound : Sound held a) (run : markBreakpoint id a = .ok result b) :
    Sound held b ∧ Grown a.graph b.graph ∧ b.current = a.current ∧ b.vars = a.vars ∧ b.labels = a.labels ∧
      (b.Quiet → a.Quiet) ∧ ∀ other node, a.graph.node? other = some node →
        ∃ next, b.graph.node? other = some next ∧ next.op = node.op ∧ next.inputs = node.inputs := by
  rcases mark_breakpoint_runs run with rfl | ⟨entry, rfl⟩
  · exact ⟨sound, b.graph.grown_refl, rfl, rfl, rfl, fun calm => calm, fun _ node read => ⟨node, read, rfl, rfl⟩⟩
  obtain ⟨kept, grown⟩ := restyle_sound id (fun node => { node with breakpoint := true }) (a.journal.note entry)
    (fun _ => rfl) (fun _ => rfl) (fun _ => rfl) rfl rfl sound
  refine ⟨kept, grown, rfl, rfl, rfl, fun calm => calm, fun other node read => ?_⟩
  rw [node_modify]
  split
  · rename_i same
    rw [← same, read]
    exact ⟨_, rfl, rfl, rfl⟩
  · exact ⟨node, read, rfl, rfl⟩

theorem preserves_mark_breakpoint (inputs : List NodeId) (id : NodeId) : Preserves inputs (markBreakpoint id) fun _ => [] := by
  intro held a result b sound _ run
  obtain ⟨kept, grown, _⟩ := mark_breakpoint_sound sound run
  exact ⟨kept, grown, by simp⟩

theorem add_node_counted (run : addNode op inputs a = .ok id b) : inputs.length = op.layout.total := by
  simp only [addNode, runs_bind, runs_of_build] at run
  obtain ⟨_, _, ⟨_, done, _⟩, _⟩ := run
  obtain ⟨graph, made, _⟩ := runs_edit.mp done
  exact ((add_node_eq_ok _).mp made).2.1

theorem add_node_sound (sound : Sound held a) (named : ∀ input ∈ inputs, a.graph.Named input)
    (controls : ∀ input ∈ inputs.drop op.layout.firstControl, a.graph.Carries Operator.continues input)
    (inner : op ≠ .control .start) (run : addNode op inputs a = .ok id b) : Sound (id :: held) b ∧ Added op inputs id a b := by
  simp only [addNode, runs_bind, runs_of_build, runs_pure] at run
  obtain ⟨_, _, ⟨_, done, rfl⟩, _, last, marked, rfl, rfl⟩ := run
  obtain ⟨graph, made, rfl⟩ := runs_edit.mp done
  obtain ⟨fits, counted, same⟩ := (add_node_eq_ok _).mp made
  cases same
  have wired := a.graph.wired_push sound.wired op inputs fits counted named controls inner
  have grown := a.graph.grown_push { op := op, inputs := inputs }
  have pushed : Sound (a.graph.size :: held) { a with graph := (a.graph.push { op := op, inputs := inputs }).2 } := by
    refine sound.regraph ⟨_, a.registry, a.journal⟩ wired grown sound.recording id [a.graph.size] ?_
    rintro other ⟨node, read, control⟩
    rw [node_push] at read
    split at read
    · exact .inr (.inr (by simp [*]))
    · exact .inl ⟨node, read, control⟩
  obtain ⟨kept, further, current, vars, labels, calm, nodes⟩ := mark_breakpoint_sound pushed marked
  obtain ⟨next, read, sameOp, sameInputs⟩ := nodes a.graph.size { op := op, inputs := inputs } (by
    change (a.graph.push { op := op, inputs := inputs }).2.node? a.graph.size = _
    rw [node_push, if_pos rfl])
  have exits : last.graph.inputsOf stop = a.graph.inputsOf stop := by
    have room := sound.wired.room
    have old : stop ≠ a.graph.size := ne_of_lt (show 1 < a.graph.size by omega)
    obtain ⟨exit, there⟩ := a.graph.node_of_lt stop (show 1 < a.graph.size by omega)
    obtain ⟨final, here, _, same⟩ := nodes stop exit (by
      change (a.graph.push { op := op, inputs := inputs }).2.node? stop = _
      rw [node_push, if_neg old, there])
    rw [last.graph.inputs_of_eq _ _ here, a.graph.inputs_of_eq _ _ there, same]
  exact ⟨kept, grown.trans further, rfl, ⟨next, read, sameOp, sameInputs⟩, counted, exits, current, vars, labels, calm⟩

namespace Added

variable {op : Operator} {inputs : List NodeId} {id : NodeId} (added : Added op inputs id a b)

include added

theorem carries (holds : test op) : b.graph.Carries test id := by
  obtain ⟨node, read, same, _⟩ := added.node
  exact ⟨node, read, same ▸ holds⟩

theorem named (sound : Sound held a) : b.graph.Named id := by
  obtain ⟨node, read, _⟩ := added.node
  refine ⟨b.graph.node_lt read, ?_⟩
  have room := sound.wired.room
  rw [added.fresh]
  exact Nat.ne_of_gt (show 1 < a.graph.size by omega)

theorem used (input : NodeId) (member : input ∈ inputs.drop op.layout.firstControl) : b.graph.Used input := by
  obtain ⟨node, read, sameOp, sameInputs⟩ := added.node
  exact ⟨id, node, read, by rw [controlInputs, sameOp, sameInputs]; exact member⟩

end Added

theorem add_plain_sound (plain : op.isControl = false) (sound : Sound held a) (named : ∀ input ∈ inputs, a.graph.Named input)
    (controls : ∀ input ∈ inputs.drop op.layout.firstControl, a.graph.Carries Operator.continues input)
    (run : addNode op inputs a = .ok id b) : Sound held b ∧ Added op inputs id a b := by
  have inner : op ≠ .control .start := by
    rintro rfl
    cases plain
  obtain ⟨kept, added⟩ := add_node_sound sound named controls inner run
  refine ⟨kept.release id held rfl ?_, added⟩
  rintro _ ⟨node, read, control⟩
  obtain ⟨other, again, same, _⟩ := added.node
  rw [read] at again
  cases again
  rw [same, plain] at control
  cases control

theorem preserves_add_value (inputs : List NodeId) (plain : op.isControl = false) (free : op.layout.controls = 0) :
    Preserves inputs (addNode op inputs) fun id => [id] := by
  intro held a id b sound named run
  have bare : inputs.drop op.layout.firstControl = [] := by
    have counted := add_node_counted run
    rw [InputLayout.total, free] at counted
    exact drop_eq_nil_of_le (counted.le)
  obtain ⟨kept, added⟩ := add_plain_sound plain sound named (by simp [bare]) run
  exact ⟨kept, added.grown, fun other member => mem_singleton.mp member ▸ added.named sound⟩

end Assembly

end SeaOfNodes
