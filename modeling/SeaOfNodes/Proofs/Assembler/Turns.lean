import SeaOfNodes.Proofs.Assembler.Strokes

/-! Commands that split and join as sequences of small changes: what holds across each change holds across every command. -/

namespace SeaOfNodes.Assembly

variable {binding : Binding} {id : LabelId} {label : LabelInfo} {arrivals : List Arrival}

open Assembler

structure Turns (holds : Assembler → Assembler → Prop) : Prop where
  join : ∀ a op inputs, op.isMerge = true ∨ op.isPhi = true → inputs.length = op.layout.total →
    holds a { a with graph := (a.graph.push { op := op, inputs := inputs }).2 }
  path : ∀ a id input result b, addPath id input a = .ok result b → holds a b
  labels : ∀ a labels, holds a { a with labels := labels }
  vars : ∀ a vars, holds a { a with vars := vars }

variable {α β : Type} {calls : Prop} {holds : Assembler → Assembler → Prop} (strokes : Strokes calls holds) (turns : Turns holds)

section

include strokes

theorem straight_loop_node : Straight holds (loopNode? binding) := by
  rw [loopNode?]
  split
  · exact strokes.pure _
  · refine strokes.bind (strokes.query) fun op => ?_
    split <;> exact strokes.pure _

theorem straight_fold_m {items : List α} {visit : β → α → Assembly β} (each : ∀ made item, Straight holds (visit made item))
    (made : β) : Straight holds (items.foldlM visit made) := by
  induction items generalizing made with
  | nil => exact strokes.pure made
  | cons item rest ih =>
    rw [List.foldlM_cons]
    exact strokes.bind (each made item) ih

end

section

include turns

theorem straight_set_variable (id : VariableId) (value : Option NodeId) : Straight holds (setVariable id value) :=
  straight_modify fun a => turns.vars a _

theorem straight_release_variable (id : VariableId) : Straight holds (releaseVariable id) :=
  straight_modify fun a => turns.vars a _

theorem straight_set_label_state {state : LabelState} : Straight holds (setLabelState id state) :=
  straight_modify fun a => turns.labels a _

theorem straight_add_path {id input : NodeId} : Straight holds (addPath id input) :=
  fun a result b run => turns.path a id input result b run

end

include strokes turns

theorem straight_add_join {op : Operator} {inputs : List NodeId} (joins : op.isMerge ∨ op.isPhi) :
    Straight holds (addNode op inputs) := by
  refine strokes.bind (straight_edit fun a id next made => ?_) fun id =>
    strokes.seq (straight_mark_breakpoint strokes id) (strokes.pure id)
  obtain ⟨_, counted, pushed⟩ := (Graph.add_node_eq_ok _).mp made
  cases pushed
  exact turns.join a op inputs joins counted

theorem straight_new_variable (name : Option String) (representation : Representation) :
    Straight holds (newVariable name representation) :=
  strokes.get fun _ => strokes.get fun _ =>
    strokes.seq (straight_modify fun a => turns.vars a _) (strokes.pure _)

theorem straight_new_label (kind : LabelKind) (declared : List VariableId) : Straight holds (newLabel kind declared) :=
  strokes.get fun _ => strokes.get fun _ =>
    strokes.seq (straight_modify fun a => turns.labels a _) (strokes.pure _)

theorem straight_merge_back {id : VariableId} {info : VariableInfo} : Straight holds (mergeBack label binding id info) := by
  rw [mergeBack]
  split
  · exact straight_add_path turns
  · exact strokes.bind (strokes.query) fun _ => straight_report strokes _
  · refine strokes.bind (strokes.get fun a => strokes.pure _) fun on => ?_
    split
    · split
      · split
        · exact straight_report strokes _
        · exact strokes.pure _
      · exact strokes.pure _
    · exact strokes.pure _
  · exact strokes.pure _

theorem straight_arrive (id : LabelId) (position : Position) : Straight holds (arrive id position) := by
  refine strokes.bind (straight_label_info strokes id) fun info => strokes.get fun a => ?_
  dsimp only
  split
  · exact straight_set_label_state turns
  rename_i binding _
  refine strokes.seq (straight_set_label_state turns) ?_
  refine strokes.bind (straight_loop_node strokes) fun loop => ?_
  split
  · exact straight_report strokes _
  · refine strokes.seq (straight_add_path turns) ?_
    have brings : Straight holds (a.liveVariables.forM fun entry =>
        mergeBack info { binding with paths := binding.paths + 1 } entry.1 entry.2) :=
      straight_for_m strokes _ _ fun entry => straight_merge_back strokes turns
    split
    · exact strokes.seq (straight_add_path turns) brings
    · exact brings

theorem straight_merge_effects {kind : LabelKind} {merge : Option NodeId} {effects : List NodeId} :
    Straight holds (mergeEffects kind merge effects) := by
  cases merge with
  | none => exact strokes.pure _
  | some merge =>
    rw [mergeEffects]
    split
    · exact straight_map _ _ (straight_add_join strokes turns (.inr rfl))
    · exact strokes.pure _

theorem straight_merge_variable {control : NodeId} {entry : VariableId × VariableInfo} :
    Straight holds (mergeVariable label arrivals control binding entry) := by
  have sets {γ : Type} (value : Option NodeId) (result : γ) :
      Straight holds (setVariable entry.1 value >>= fun _ => pure result) :=
    strokes.seq (straight_set_variable turns _ _) (strokes.pure _)
  rw [mergeVariable]
  dsimp only
  split
  · refine strokes.bind (strokes.get fun a => strokes.pure _) fun on => ?_
    split
    · exact strokes.seq (straight_report strokes _) (sets _ _)
    · exact sets _ _
  · split
    · exact strokes.bind (straight_add_join strokes turns (.inr rfl)) fun phi => sets _ _
    · exact sets _ _

theorem straight_bind_arrivals : Straight holds (bindArrivals id label arrivals) := by
  cases arrivals with
  | nil =>
    refine strokes.seq (straight_set_label_state turns) ?_
    refine strokes.seq (strokes.set_current _) ?_
    exact strokes.get fun a => straight_for_m strokes _ _ fun entry => straight_set_variable turns _ _
  | cons first rest =>
    have goes (merge : Option NodeId) : Straight holds (joinAt id label first rest merge) :=
      strokes.bind (straight_merge_effects strokes turns) fun effectPhi =>
        strokes.get fun a =>
          strokes.bind (straight_fold_m strokes (fun _ _ => straight_merge_variable strokes turns) _)
            fun binding => strokes.seq (straight_set_label_state turns) (strokes.set_current _)
    simp only [bindArrivals]
    split
    · exact strokes.bind (straight_map _ _ (straight_add_join strokes turns (.inl rfl))) goes
    · split
      · exact goes none
      · exact strokes.bind (straight_map _ _ (straight_add_join strokes turns (.inl rfl))) goes

theorem straight_bind_waiting (id : LabelId) (info : LabelInfo) :
    Straight holds (labelInfo id >>= fun found => match found.state with
      | .waiting arrivals => bindArrivals id info arrivals
      | .bound _ => pure ()) := by
  refine strokes.bind (straight_label_info strokes id) fun found => ?_
  split
  · exact straight_bind_arrivals strokes turns
  · exact strokes.pure _

theorem straight_bind_label (id : LabelId) : Straight holds (Assembly.bind id) := by
  refine strokes.bind (straight_label_info strokes id) fun info => ?_
  have closed := straight_bind_waiting strokes turns id info
  split
  · exact straight_report strokes _
  · refine strokes.get fun a => ?_
    split
    · exact strokes.seq (strokes.set_current none) (strokes.seq (straight_arrive strokes turns _ _) closed)
    · exact closed

theorem turns_steer : Steers holds where
  newVariable := straight_new_variable strokes turns
  setVariable := straight_set_variable turns
  releaseVariable := straight_release_variable turns
  newLabel := straight_new_label strokes turns
  arrive := straight_arrive strokes turns
  bind := straight_bind_label strokes turns

end SeaOfNodes.Assembly
