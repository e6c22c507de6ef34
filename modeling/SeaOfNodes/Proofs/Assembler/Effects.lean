import SeaOfNodes.Proofs.Assembler.Nodes
import SeaOfNodes.Proofs.Assembler.Straight

namespace SeaOfNodes

open List

def Position.past (op : Operator) (id : NodeId) (position : Position) : Position :=
  { effect := if 0 < op.outputs.effects then id else position.effect
    control := if 0 < op.outputs.controls then id else position.control }

namespace Assembly

variable {operation : String} {op : Operator}

open Assembler

variable {held : List NodeId} {a b : Assembler}

theorem position_sound {position : Position} (sound : Sound held a) (run : Assembly.position operation a = .ok position b) :
    Sound held b ∧ b.graph = a.graph ∧ b.current = a.current ∧ b.labels = a.labels ∧ Standing b.graph position ∧
      (b.Quiet → b.current = some position) := by
  simp only [Assembly.position, runs_bind, runs_get] at run
  obtain ⟨_, _, ⟨rfl, rfl⟩, rest⟩ := run
  cases open_ : a.current with
  | some here =>
    rw [open_] at rest
    obtain ⟨rfl, rfl⟩ := runs_pure.mp rest
    exact ⟨sound, rfl, open_, rfl, sound.current here open_, fun _ => open_⟩
  | none =>
    rw [open_] at rest
    simp only [runs_bind, runs_pure] at rest
    obtain ⟨_, _, reported, rfl, rfl⟩ := rest
    obtain ⟨kept, graph, current, labels, loud⟩ := report_sound held sound reported
    refine ⟨kept, graph, current.trans open_, labels, ?_, fun quiet => absurd quiet loud⟩
    obtain ⟨node, read, starts⟩ := kept.wired.entry
    refine ⟨⟨Graph.node_lt _ read, by decide⟩, node, read, by rw [starts]; rfl⟩

theorem last_control (inputs : List NodeId) (control : NodeId) {layout : InputLayout} (single : layout.controls ≤ 1)
    (counted : (inputs ++ if 0 < layout.controls then [control] else []).length = layout.total) :
    (inputs ++ if 0 < layout.controls then [control] else []).drop layout.firstControl =
      if 0 < layout.controls then [control] else [] := by
  have width : (if 0 < layout.controls then [control] else []).length = layout.controls := by
    split
    · rw [length_singleton]
      omega
    · rw [length_nil]
      omega
  rw [length_append, width, InputLayout.total] at counted
  rw [← Nat.add_right_cancel counted, drop_left]

structure Appended (op : Operator) (id : NodeId) (position : Position) (a b : Assembler) : Prop where
  grown : Graph.Grown a.graph b.graph
  named : b.graph.Named id
  node : ∃ node, b.graph.node? id = some node ∧ node.op = op
  standing : Standing b.graph position
  here : b.Quiet → b.current = some position
  used : 0 < op.layout.controls → b.graph.Used position.control
  room : (b.graph.inputsOf Graph.stop).length + 2 < b.graph.size

theorem add_effect_node_runs {values : List NodeId} {id : NodeId} (inner : op ≠ .control .start) (single : op.layout.controls ≤ 1)
    (sound : Sound held a) (named : ∀ value ∈ values, a.graph.Named value) (run : addEffectNode op values operation a = .ok id b) :
    ∃ position m, Sound (id :: held) m ∧ Appended op id position a m ∧
      b = { m with current := m.current.map (Position.past op id) } := by
  simp only [addEffectNode, runs_bind, runs_of_except, runs_get] at run
  obtain ⟨position, before, stood, _, _, ⟨layout, rfl⟩, added, middle, made, _, _, ⟨rfl, rfl⟩, moved⟩ := run
  obtain ⟨fits, rfl⟩ := (checked_layout_eq_ok _ _).mp layout
  obtain ⟨kept, graph, current, _, standing, here⟩ := position_sound sound stood
  have known : ∀ value ∈ values, before.graph.Named value := fun value member => graph ▸ named value member
  have through := before.graph.wired_named kept.wired standing.2 fun _ => rfl
  have ends := last_control _ position.control single (add_node_counted made)
  have inputs : ∀ input ∈ values ++ (if 0 < op.layout.effects then [position.effect] else []) ++
      (if 0 < op.layout.controls then [position.control] else []), before.graph.Named input := by
    intro input member
    simp only [mem_append, mem_ite_nil_right, mem_singleton] at member
    rcases member with (value | ⟨_, rfl⟩) | ⟨_, rfl⟩
    · exact known input value
    · exact standing.1
    · exact through
  have controls : ∀ input ∈ (values ++ (if 0 < op.layout.effects then [position.effect] else []) ++
      (if 0 < op.layout.controls then [position.control] else [])).drop op.layout.firstControl,
      before.graph.Carries Operator.continues input := by
    intro input member
    rw [ends, mem_ite_nil_right, mem_singleton] at member
    exact member.2 ▸ standing.2
  obtain ⟨final, addition⟩ := add_node_sound kept inputs controls inner made
  have answer : added = id ∧ b = { middle with current := middle.current.map (Position.past op added) } := by
    cases open_ : middle.current with
    | some current =>
      rw [open_] at moved
      simp only [setCurrent, runs_bind, runs_modify, runs_pure] at moved
      obtain ⟨_, _, rfl, same, rfl⟩ := moved
      exact ⟨same, rfl⟩
    | none =>
      rw [open_] at moved
      obtain ⟨same, rfl⟩ := runs_pure.mp moved
      refine ⟨same, ?_⟩
      rw [Option.map_none, ← open_]
  obtain ⟨rfl, rfl⟩ := answer
  refine ⟨position, middle, final, ?_, rfl⟩
  exact
    { grown := graph ▸ addition.grown
      named := addition.named kept
      node := addition.node.imp fun _ read => ⟨read.1, read.2.1⟩
      standing := standing_grown addition.grown standing
      here := fun quiet => addition.current.trans (here (addition.calm quiet))
      used := fun some => addition.used _ (by rw [ends, if_pos some]; exact mem_cons_self)
      room := by
        have former := kept.wired.room
        have fresh : before.graph.size < middle.graph.size := addition.fresh ▸ (addition.named kept).1
        rw [addition.exits]
        omega }

namespace Appended

variable {op : Operator} {id : NodeId} {position : Position} {m : Assembler} (appended : Appended op id position a m)

include appended

theorem carries {test : Operator → Bool} (holds : test op) : m.graph.Carries test id := by
  obtain ⟨node, read, same⟩ := appended.node
  exact ⟨node, read, same ▸ holds⟩

theorem not_control (plain : op.isControl = false) : ¬ m.graph.Carries Operator.isControl id := by
  rintro ⟨other, again, control⟩
  obtain ⟨node, read, same⟩ := appended.node
  rw [read] at again
  cases again
  rw [same, plain] at control
  cases control

theorem standing_past {current : Position} (standing : Standing m.graph current)
    (onward : op.isControl → op.isTerminator = false) : Standing m.graph (current.past op id) := by
  constructor
  · change m.graph.Named (if _ then _ else _)
    split
    · exact appended.named
    · exact standing.1
  · change m.graph.Carries Operator.continues (if _ then _ else _)
    split
    · rename_i control
      have produces : op.isControl := by rw [Operator.isControl, decide_eq_true control]
      exact appended.carries (by rw [Operator.continues, produces, onward produces]; rfl)
    · exact standing.2

end Appended

theorem preserves_add_effect (values : List NodeId) (operation : String) (inner : op ≠ .control .start)
    (single : op.layout.controls ≤ 1) (onward : op.isControl → op.isTerminator = false ∧ 0 < op.layout.controls) :
    Preserves values (addEffectNode op values operation) fun id => [id] := by
  intro held a id b sound named run
  obtain ⟨position, m, kept, appended, rfl⟩ := add_effect_node_runs inner single sound named run
  refine ⟨?_, appended.grown, fun other member => mem_singleton.mp member ▸ appended.named⟩
  cases open_ : m.current with
  | none =>
    refine (kept.release id held rfl fun quiet _ => ?_).congr _ rfl open_.symm rfl rfl
    rw [appended.here quiet] at open_
    cases open_
  | some current =>
    have standing := appended.standing_past (kept.current current open_) fun control => (onward control).1
    have closed := kept.close fun _ => open_
    have ready : Sound ((current.past op id).control :: held) { m with current := none } := by
      by_cases control : 0 < op.outputs.controls
      · rw [show (current.past op id).control = id from if_pos control]
        refine closed.release current.control (id :: held) rfl fun quiet _ => .inl ?_
        cases open_.symm.trans (appended.here quiet)
        exact appended.used (onward (by rw [Operator.isControl, decide_eq_true control])).2
      · rw [show (current.past op id).control = current.control from if_neg control]
        refine (closed.weaken (id :: current.control :: held) ?_).release id (current.control :: held) rfl ?_
        · intro other member
          exact (Perm.swap _ _ _).mem_iff.mp member
        · intro _ carries
          exact absurd carries (appended.not_control (by rw [Operator.isControl, decide_eq_false control]))
    exact ready.reopen (current.past op id) held rfl (fun _ impossible => by cases impossible) standing

theorem terminator_shape (ends : op.isTerminator) :
    op.isControl ∧ op.layout.controls = 1 ∧ op ≠ .control .start ∧ op.isMerge = false ∧ op.isPhi = false := by
  cases op with
  | control kind =>
    cases kind with
    | ret count | throw => exact ⟨rfl, rfl, by simp, rfl, rfl⟩
    | _ => cases ends
  | tailCall site => exact ⟨rfl, rfl, by simp, rfl, rfl⟩
  | _ => cases ends

theorem preserves_add_terminator (values : List NodeId) (operation : String) (ends : op.isTerminator) :
    Preserves values (addTerminator op values operation) fun id => [id] := by
  intro held a id b sound named run
  obtain ⟨control, single, inner, _⟩ := terminator_shape ends
  simp only [addTerminator, setCurrent, runs_bind, runs_of_build, Build.runs_change, runs_modify, runs_pure] at run
  obtain ⟨id, _, added, _, _, ⟨_, ⟨next, merged, rfl⟩, rfl⟩, _, _, rfl, rfl, rfl⟩ := run
  obtain ⟨position, m, kept, appended, rfl⟩ := add_effect_node_runs inner (single.le) sound named added
  obtain ⟨wired, grown, used, old⟩ := m.graph.merge_to_end_wired kept.wired appended.named
    (appended.carries control) appended.room merged
  have closed : Sound (id :: held) { m with current := none } :=
    (kept.close appended.here).release position.control (id :: held) rfl fun _ _ =>
      .inl (appended.used (by rw [single]; exact one_pos))
  have merging := closed.regraph ⟨next, m.registry, m.journal⟩ wired grown kept.recording (fun calm => calm) []
    fun other carries => .inl (old other carries)
  refine ⟨merging.release id held rfl fun _ _ => .inl used, appended.grown.trans grown, fun other member => ?_⟩
  exact grown.named (mem_singleton.mp member ▸ appended.named)

theorem preserves_set_type (inputs : List NodeId) (id : NodeId) (type : ValueType) :
    Preserves inputs (ofBuild (Build.change fun graph => graph.setType id type)) fun _ => [] := by
  intro held a _ b sound _ run
  simp only [runs_of_build, Build.runs_change, Graph.setType, bind_eq_ok, pure_eq_ok] at run
  obtain ⟨_, ⟨_, ⟨_, _, rfl⟩, rfl⟩, rfl⟩ := run
  obtain ⟨kept, grown⟩ := restyle_sound id (fun node => { node with type := type }) a.journal (fun _ => rfl) (fun _ => rfl)
    (fun _ => rfl) rfl rfl sound
  exact ⟨kept, grown, by simp⟩

theorem preserves_add_comment (inputs : List NodeId) (text : String) :
    Preserves inputs (ofBuild (Build.edit fun graph => .ok (graph.addComment text))) fun _ => [] := by
  intro held a _ b sound _ run
  obtain ⟨_, done, rfl⟩ := runs_of_build.mp run
  obtain ⟨graph, made, rfl⟩ := Build.runs_edit.mp done
  cases made
  obtain ⟨wired, grown⟩ := Graph.wired_same_nodes a.graph (a.graph.addComment text).2 sound.wired (fun _ => rfl) rfl
    sound.wired.constants
  exact ⟨sound.regraph ⟨_, a.registry, a.journal⟩ wired grown sound.recording id [] fun _ control =>
    .inl control, grown, by simp⟩

theorem preserves_intern (inputs : List NodeId) (descriptor : CallDescriptor) :
    Preserves inputs (ofBuild (Build.intern descriptor)) fun _ => [] := by
  intro held a _ b sound _ run
  simp only [runs_of_build, Build.intern, runs_bind, runs_get, runs_modify, runs_pure] at run
  obtain ⟨_, ⟨_, _, ⟨rfl, rfl⟩, _, _, rfl, _, rfl⟩, rfl⟩ := run
  have kept := sound.regraph ⟨a.graph, (a.registry.intern descriptor).2, a.journal⟩ sound.wired a.graph.grown_refl
    sound.recording id [] fun _ control => .inl control
  exact ⟨kept, a.graph.grown_refl, by simp⟩

theorem preserves_notes {α : Type} (inputs : List NodeId) (work : Build α) (notes : Notes work) :
    Preserves inputs (ofBuild work) fun _ => [] := by
  intro held a result b sound _ run
  obtain ⟨t, done, rfl⟩ := runs_of_build.mp run
  obtain ⟨graph, _, mode, violations⟩ := notes _ _ _ done
  have grown : Graph.Grown a.graph t.graph := graph ▸ a.graph.grown_refl
  exact ⟨sound.regraph t (graph ▸ sound.wired) grown (mode.trans sound.recording) (fun calm => violations.symm.trans calm) []
    fun _ control => .inl (graph ▸ control), grown, by simp⟩

theorem preserves_discipline : Discipline True @Preserves where
  pure := preserves_pure
  bind := preserves_bind
  map := preserves_map
  more := preserves_more
  forget := preserves_forget
  get := preserves_get
  ofExcept inputs outcome := preserves_of_except inputs outcome (by simp)
  report := preserves_report
  notes := preserves_notes
  intern := preserves_intern
  hooks _ _ _ := preserves_modify rfl (fun _ => rfl) (fun _ => rfl) (fun _ => rfl) fun _ => rfl
  breakOn _ _ := preserves_modify rfl (fun _ => rfl) (fun _ => rfl) (fun _ => rfl) fun _ => rfl
  generated _ := preserves_modify rfl (fun _ => rfl) (fun _ => rfl) (fun _ => rfl) fun _ => rfl
  markBreakpoint := preserves_mark_breakpoint
  setType := preserves_set_type
  addComment := preserves_add_comment
  constant := preserves_constant
  value op inputs plain _ free := preserves_add_value inputs plain free
  memory op values operation plain _ single := preserves_add_effect values operation (by rintro rfl; cases plain) single
    fun control => by rw [plain] at control; cases control
  emit _ values operation _ := preserves_add_effect values operation (by simp) (le_refl 1) fun _ => ⟨rfl, one_pos⟩
  terminator op values operation ends _ := preserves_add_terminator values operation ends

end Assembly

end SeaOfNodes
