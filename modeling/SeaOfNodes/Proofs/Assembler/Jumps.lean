import SeaOfNodes.Proofs.Assembler.Joins

namespace SeaOfNodes.Assembly

open List

variable {result : Unit}

open Assembler

variable {held : List NodeId} {a b : Assembler}

-- The block is left with its control in hand.
theorem leave_sound {operation : String} {position : Position} {m : Assembler} (sound : Sound held a)
    (run : Assembly.position operation a = .ok position m) :
    Sound (position.control :: held) { m with current := none } ∧ m.graph = a.graph ∧ Standing m.graph position := by
  obtain ⟨kept, graph, _, _, standing, here⟩ := position_sound sound run
  exact ⟨kept.close here, graph, standing⟩

theorem add_control_sound (op : ControlOp) (values : List NodeId) (control id : NodeId)
    (onward : (Operator.control op).continues) (single : op.layout.controls = 1) (sound : Sound held a)
    (named : ∀ value ∈ values, a.graph.Named value) (leads : a.graph.Carries Operator.continues control)
    (run : addNode (.control op) (values ++ [control]) a = .ok id b) :
    Sound (id :: held) b ∧ Added (.control op) (values ++ [control]) id a b ∧ b.graph.Carries Operator.continues id ∧
      b.graph.Used control := by
  have last := ends_in_control (.control op) single run
  have inner : Operator.control op ≠ .control .start := by
    intro same
    cases same
    cases single
  obtain ⟨kept, added⟩ := add_node_sound sound (named_with_control sound.wired named leads)
    (fun input member => by rw [last] at member; exact mem_singleton.mp member ▸ leads) inner run
  exact ⟨kept, added, added.carries onward, added.used control (by rw [last]; exact mem_cons_self)⟩

theorem preserves_goto (inputs : List NodeId) (id : LabelId) : Preserves inputs (goto id) fun _ => [] := by
  intro held a result b sound _ run
  simp only [goto, setCurrent, runs_bind, runs_modify] at run
  obtain ⟨position, m, left, _, _, rfl, arrived⟩ := run
  obtain ⟨kept, graph, standing⟩ := leave_sound sound left
  obtain ⟨final, grown, _⟩ := arrive_sound position kept standing arrived
  exact ⟨final, graph ▸ grown, by simp⟩

theorem preserves_branch (condition : NodeId) (ifTrue ifFalse : LabelId) :
    Preserves [condition] (branch condition ifTrue ifFalse) fun _ => [] := by
  intro held a result b sound named run
  simp only [branch, setCurrent, runs_bind, runs_modify] at run
  obtain ⟨position, m, left, _, _, rfl, split, forked, made, yes, n, first, no, o, second, _, _, here, there⟩ := run
  obtain ⟨open_, graph, standing⟩ := leave_sound sound left
  obtain ⟨s₁, added₁, leads₁, used₁⟩ := add_control_sound .branch [condition] position.control split rfl rfl open_
    (fun value member => graph ▸ named value member) standing.2 made
  obtain ⟨s₂, added₂, leads₂, used₂⟩ := add_control_sound .ifTrue [] split yes rfl rfl s₁ (by simp) leads₁ first
  have still := added₂.grown.carries _ continues_by_family _ leads₁
  obtain ⟨s₃, added₃, leads₃, used₃⟩ := add_control_sound .ifFalse [] split no rfl rfl s₂ (by simp) still second
  have grown : Graph.Grown m.graph o.graph := added₁.grown.trans (added₂.grown.trans added₃.grown)
  have both : Sound (yes :: no :: held) o := s₃.narrow _ fun control inHand => by
    simp only [mem_cons] at inHand ⊢
    rcases inHand with rfl | rfl | rfl | rfl | inHand
    · exact .inl (.inr (.inl rfl))
    · exact .inl (.inl rfl)
    · exact .inr used₃
    · exact .inr (added₃.grown.used _ (added₂.grown.used _ used₁))
    · exact .inl (.inr (.inr inHand))
  have effect := grown.named standing.1
  obtain ⟨one, further, _⟩ := arrive_sound ⟨position.effect, yes⟩ both
    ⟨effect, added₃.grown.carries _ continues_by_family _ leads₂⟩ here
  obtain ⟨two, last, _⟩ := arrive_sound ⟨position.effect, no⟩ one
    ⟨further.named effect, further.carries _ continues_by_family _ leads₃⟩ there
  exact ⟨two, graph ▸ grown.trans (further.trans last), by simp⟩

-- One way out of a switch after the other.
theorem switch_cases_run {effect switch : NodeId} {cases : List (Int32 × LabelId)} (sound : Sound held a)
    (named : a.graph.Named effect) (leads : a.graph.Carries Operator.continues switch)
    (run : (cases.forM fun (value, id) => do
      let control ← addNode (.control (.ifValue value)) [switch]
      arrive id ⟨effect, control⟩ : Assembly Unit) a = .ok result b) :
    Sound held b ∧ Graph.Grown a.graph b.graph := by
  induction cases generalizing a with
  | nil =>
    obtain ⟨_, rfl⟩ := runs_pure.mp run
    exact ⟨sound, a.graph.grown_refl⟩
  | cons way rest ih =>
    obtain ⟨_, middle, first, later⟩ := runs_bind.mp run
    obtain ⟨control, m, made, arrived⟩ := runs_bind.mp first
    obtain ⟨taken, added, onward, _⟩ := add_control_sound (.ifValue way.1) [] switch control rfl rfl sound (by simp) leads made
    obtain ⟨kept, grown, _⟩ := arrive_sound ⟨effect, control⟩ taken ⟨added.grown.named named, onward⟩ arrived
    have step := added.grown.trans grown
    obtain ⟨final, further⟩ := ih kept (step.named named) (step.carries _ continues_by_family _ leads) later
    exact ⟨final, step.trans further⟩

theorem preserves_switch (index : NodeId) (default : LabelId) (cases : List (Int32 × LabelId)) :
    Preserves [index] (switch index default cases) fun _ => [] := by
  intro held a result b sound named run
  simp only [switch, setCurrent, runs_bind, runs_modify, runs_of_except] at run
  obtain ⟨position, m, left, _, _, rfl, ways, _, ⟨_, rfl⟩, split, n, made, _, o, looped, no, p, last, arrived⟩ := run
  obtain ⟨open_, graph, standing⟩ := leave_sound sound left
  obtain ⟨s₁, added₁, leads₁, used₁⟩ := add_control_sound (.switch ways) [index] position.control split rfl rfl open_
    (fun value member => graph ▸ named value member) standing.2 made
  have effect := added₁.grown.named standing.1
  obtain ⟨s₂, grown₂⟩ := switch_cases_run s₁ effect leads₁ looped
  obtain ⟨s₃, added₃, leads₃, used₃⟩ := add_control_sound .ifDefault [] split no rfl rfl s₂ (by simp)
    (grown₂.carries _ continues_by_family _ leads₁) last
  have rest : Sound (no :: held) p := s₃.narrow _ fun control inHand => by
    simp only [mem_cons] at inHand ⊢
    rcases inHand with rfl | rfl | rfl | inHand
    · exact .inl (.inl rfl)
    · exact .inr used₃
    · exact .inr (added₃.grown.used _ (grown₂.used _ used₁))
    · exact .inl (.inr inHand)
  have further := grown₂.trans added₃.grown
  obtain ⟨final, ends, _⟩ := arrive_sound ⟨position.effect, no⟩ rest ⟨further.named effect, leads₃⟩ arrived
  exact ⟨final, graph ▸ added₁.grown.trans (further.trans ends), by simp⟩

theorem preserves_branching : Branching @Preserves where
  newVariable := preserves_new_variable
  setVariable := preserves_set_variable
  releaseVariable := preserves_release_variable
  newLabel := preserves_new_label
  bind := preserves_bind_label
  goto := preserves_goto
  branch := preserves_branch
  switch := preserves_switch

theorem goto_if_exception_sound {call : NodeId} {handler : LabelId} {exception : Option VariableId} (sound : Sound held a)
    (named : a.graph.Named call) (last : ∀ position, a.current = some position → position.control = call)
    (run : gotoIfException call handler exception a = .ok result b) : Sound held b ∧ Graph.Grown a.graph b.graph := by
  simp only [gotoIfException, runs_bind, runs_of_build, Build.runs_query, Graph.op_eq_ok] at run
  obtain ⟨position, m, stood, _, _, ⟨_, ⟨⟨node, read, rfl⟩, rfl⟩, rfl⟩, rest⟩ := run
  cases shape : node.op with
  | call site =>
    simp only [shape, runs_bind] at rest
    obtain ⟨success, n, first, thrown, o, second, rest⟩ := rest
    obtain ⟨kept, graph, current, _, standing, _⟩ := position_sound sound stood
    have leads : m.graph.Carries Operator.continues call := ⟨node, read, by rw [shape]; rfl⟩
    obtain ⟨s₁, added₁, leads₁, used₁⟩ := add_control_sound .ifSuccess [] call success rfl rfl kept (by simp) leads first
    have calls : ∀ value ∈ [call], n.graph.Named value := fun value member =>
      added₁.grown.named (mem_singleton.mp member ▸ graph ▸ named)
    obtain ⟨s₂, added₂, leads₂, _⟩ := add_control_sound .ifException [call] call thrown rfl rfl s₁ calls
      (added₁.grown.carries _ continues_by_family _ leads) second
    have grown : Graph.Grown a.graph o.graph := graph ▸ added₁.grown.trans added₂.grown
    have made := added₂.named s₁
    -- The block goes on from the success projection, and the call leads there.
    have goes : ∀ {p : Assembler}, Sound (success :: held) p → Graph.Grown o.graph p.graph → p.current = a.current →
        setCurrent (some ⟨position.effect, success⟩) p = .ok result b → Sound held b ∧ Graph.Grown a.graph b.graph := by
      intro p final further same done
      cases done
      have whole := added₁.grown.trans (added₂.grown.trans further)
      refine ⟨final.reopen ⟨position.effect, success⟩ held rfl ?_ ⟨whole.named standing.1, ?_⟩, grown.trans further⟩
      · intro former open_ _
        rw [same] at open_
        exact .inl (last former open_ ▸ further.used _ (added₂.grown.used _ used₁))
      · exact further.carries _ continues_by_family _ (added₂.grown.carries _ continues_by_family _ leads₁)
    have before : o.current = a.current := added₂.current.trans (added₁.current.trans current)
    cases exception with
    | none =>
      simp only [runs_bind] at rest
      obtain ⟨_, p, arrived, rest⟩ := rest
      obtain ⟨final, further, same⟩ := arrive_sound ⟨thrown, thrown⟩ s₂ ⟨made, leads₂⟩ arrived
      exact goes final further (same.trans before) rest
    | some id =>
      simp only [runs_bind] at rest
      obtain ⟨info, _, found, _, q, stored, _, p, arrived, _, r, restored, rest⟩ := rest
      obtain ⟨known, rfl⟩ := variable_info_runs found
      obtain ⟨s₃, graph₃, current₃, _⟩ := set_variable_runs s₂ (fun other same => Option.some.inj same ▸ made) stored
      obtain ⟨s₄, further, same⟩ := arrive_sound ⟨thrown, thrown⟩ s₃ (graph₃ ▸ ⟨made, leads₂⟩) arrived
      rw [graph₃] at further
      obtain ⟨s₅, graph₅, current₅, _⟩ := set_variable_runs s₄
        (fun other bound => further.named (s₂.values id info other known bound)) restored
      exact goes s₅ (graph₅ ▸ further) (current₅.trans (same.trans (current₃.trans before))) rest
  | _ =>
    rw [shape] at rest
    cases rest

end SeaOfNodes.Assembly
