import SeaOfNodes.Proofs.Assembler.Labels

namespace SeaOfNodes.Assembly

open List

variable {id control : NodeId} {value : Option NodeId} {result : Unit} {values : List NodeId} {label : LabelInfo}
  {arrivals : List Arrival} {binding final : Binding} {op : UInt32 → ControlOp} {count : UInt32}

open Assembler

variable {held : List NodeId} {a b : Assembler}

theorem set_variable_sound (id : VariableId) (value : Option NodeId) (live : VariableInfo → Bool) (sound : Sound held a)
    (named : ∀ node, value = some node → a.graph.Named node) :
    Sound held { a with vars := a.vars.modify id fun info => { info with value := value, live := live info } } := by
  refine sound.revars fun other info node read bound => ?_
  rw [Pool.get_modify] at read
  split at read
  · obtain ⟨former, _, rfl⟩ := Option.map_eq_some_iff.mp read
    exact named node bound
  · exact sound.values other info node read bound

theorem set_variable_runs {id : VariableId} (sound : Sound held a) (named : ∀ node, value = some node → a.graph.Named node)
    (run : setVariable id value a = .ok result b) :
    Sound held b ∧ b.graph = a.graph ∧ b.current = a.current ∧ b.labels = a.labels := by
  cases run
  exact ⟨set_variable_sound id value VariableInfo.live sound named, rfl, rfl, rfl⟩

theorem preserves_set_variable (id : VariableId) (value : Option NodeId) :
    Preserves value.toList (setVariable id value) fun _ => [] := by
  intro held a result b sound named run
  obtain ⟨kept, graph, _⟩ := set_variable_runs sound (fun node same => named node (by rw [same]; exact mem_cons_self)) run
  exact ⟨kept, graph ▸ a.graph.grown_refl, by simp⟩

theorem preserves_release_variable (inputs : List NodeId) (id : VariableId) :
    Preserves inputs (releaseVariable id) fun _ => [] := by
  intro held a result b sound _ run
  cases run
  exact ⟨set_variable_sound id none (fun _ => false) sound (by simp), a.graph.grown_refl, by simp⟩

theorem preserves_new_variable (inputs : List NodeId) (name : Option String) (representation : Representation) :
    Preserves inputs (newVariable name representation) fun _ => [] := by
  intro held a result b sound _ run
  simp only [newVariable, runs_bind, runs_get, runs_modify, runs_pure] at run
  obtain ⟨_, _, ⟨rfl, rfl⟩, _, _, ⟨rfl, rfl⟩, _, _, rfl, _, rfl⟩ := run
  refine ⟨sound.revars fun other info node read bound => ?_, a.graph.grown_refl, by simp⟩
  rw [Pool.get_alloc] at read
  split at read
  · cases read
    cases bound
  · exact sound.values other info node read bound

theorem variable_info_runs {id : VariableId} {info : VariableInfo} (run : variableInfo id a = .ok info b) :
    a.vars.get? id = some info ∧ a = b := by
  simp only [variableInfo, runs_bind, runs_get, runs_of_except, Pool.get] at run
  obtain ⟨_, _, ⟨rfl, rfl⟩, found, rfl⟩ := run
  exact ⟨present_eq_ok.mp found, rfl⟩

theorem preserves_variable_value (inputs : List NodeId) (id : VariableId) :
    Preserves inputs (variableValue id) Option.toList := by
  intro held a result b sound _ run
  simp only [variableValue, runs_bind] at run
  obtain ⟨info, _, found, rest⟩ := run
  obtain ⟨read, rfl⟩ := variable_info_runs found
  have known : ∀ node ∈ info.value.toList, a.graph.Named node := fun node member =>
    sound.values id info node read (Option.mem_toList.mp member)
  split at rest
  · simp only [runs_bind, runs_pure] at rest
    obtain ⟨_, _, reported, rfl, rfl⟩ := rest
    obtain ⟨kept, graph, _⟩ := report_sound held sound reported
    exact ⟨kept, graph ▸ a.graph.grown_refl, graph ▸ known⟩
  · cases rest
    exact ⟨sound, a.graph.grown_refl, known⟩

theorem variable_value_bound {id : VariableId} (sound : Sound held a) (calm : b.Quiet) (run : variableValue id a = .ok value b) :
    ∃ node, value = some node := by
  simp only [variableValue, runs_bind] at run
  obtain ⟨info, _, found, rest⟩ := run
  obtain ⟨_, rfl⟩ := variable_info_runs found
  split at rest
  · simp only [runs_bind, runs_pure] at rest
    obtain ⟨_, _, reported, _, rfl⟩ := rest
    obtain ⟨_, _, _, _, loud⟩ := report_sound held sound reported
    exact absurd calm loud
  · rename_i bound
    cases rest
    exact Option.ne_none_iff_exists'.mp fun missing => bound (by rw [missing]; rfl)

theorem preserves_new_label (inputs : List NodeId) (kind : LabelKind) (declared : List VariableId) :
    Preserves inputs (newLabel kind declared) fun _ => [] := by
  intro held a result b sound _ run
  simp only [newLabel, runs_bind, runs_get, runs_modify, runs_pure] at run
  obtain ⟨_, _, ⟨rfl, rfl⟩, _, _, ⟨rfl, rfl⟩, _, _, rfl, _, rfl⟩ := run
  refine ⟨sound.relabel held ?_ ?_ ?_, a.graph.grown_refl, by simp⟩
  · intro other info arrivals read state
    rw [Pool.get_alloc] at read
    split at read
    · cases read
      cases state
      simp
    · exact sound.waiting other info arrivals read state
  · intro other info binding read state
    rw [Pool.get_alloc] at read
    split at read
    · cases read
      cases state
    · exact sound.bound other info binding read state
  · rintro control (inHand | here | ⟨other, info, arrivals, arrival, read, rest⟩)
    · exact .inr (.inl inHand)
    · exact .inr (.inr (.inl here))
    · exact .inr (.inr (.inr ⟨other, info, arrivals, arrival, Pool.get?_alloc_before _ _ _ _ read, rest⟩))

theorem ends_in_control (op : Operator) (single : op.layout.controls = 1) (run : addNode op (values ++ [control]) a = .ok id b) :
    (values ++ [control]).drop op.layout.firstControl = [control] := by
  have here : (if 0 < op.layout.controls then [control] else []) = [control] := by rw [single, if_pos one_pos]
  have last := last_control values control (single.le)
  rw [here] at last
  exact last (add_node_counted run)

theorem named_with_control (wired : a.graph.Wired) (named : ∀ value ∈ values, a.graph.Named value)
    (leads : a.graph.Carries Operator.continues control) : ∀ input ∈ values ++ [control], a.graph.Named input := by
  exact forall_mem_append.mpr ⟨named, forall_mem_singleton.mpr (a.graph.wired_named wired leads fun _ => rfl)⟩

theorem add_phi_sound {op : Operator} (phi : op.isPhi) (sound : Sound held a)
    (named : ∀ value ∈ values, a.graph.Named value) (leads : a.graph.Carries Operator.continues control)
    (run : addNode op (values ++ [control]) a = .ok id b) : Sound held b ∧ Added op (values ++ [control]) id a b := by
  have shape : op.layout.controls = 1 ∧ op.isControl = false := by
    cases op with
    | phi representation count | effectPhi count => exact ⟨rfl, rfl⟩
    | _ => cases phi
  refine add_plain_sound shape.2 sound (named_with_control sound.wired named leads) ?_ run
  · rw [ends_in_control op shape.1 run]
    intro input member
    exact mem_singleton.mp member ▸ leads

theorem merge_effects_sound {kind : LabelKind} {merge : Option NodeId} {effects : List NodeId} {phi : Option NodeId}
    (sound : Sound held a) (named : ∀ effect ∈ effects, a.graph.Named effect)
    (leads : ∀ control, merge = some control → a.graph.Carries Operator.continues control)
    (run : mergeEffects kind merge effects a = .ok phi b) :
    Sound held b ∧ Graph.Grown a.graph b.graph ∧ b.current = a.current ∧ b.labels = a.labels ∧
      ∀ id, phi = some id → b.graph.Carries Operator.isPhi id ∧ b.graph.Named id := by
  have rests : (pure none : Assembly (Option NodeId)) a = .ok phi b → Sound held b ∧ Graph.Grown a.graph b.graph ∧
      b.current = a.current ∧ b.labels = a.labels ∧
      ∀ id, phi = some id → b.graph.Carries Operator.isPhi id ∧ b.graph.Named id := by
    intro done
    cases done
    exact ⟨sound, a.graph.grown_refl, rfl, rfl, fun _ impossible => by cases impossible⟩
  cases merge with
  | none => exact rests run
  | some control =>
    simp only [mergeEffects] at run
    split at run
    · obtain ⟨id, made, rfl⟩ := runs_map.mp run
      obtain ⟨kept, added⟩ := add_phi_sound rfl sound named (leads control rfl) made
      refine ⟨kept, added.grown, added.current, added.labels, fun other same => ?_⟩
      cases same
      exact ⟨added.carries rfl, added.named sound⟩
    · exact rests run

theorem merge_variable_sound {entry : VariableId × VariableInfo} (sound : Sound held a)
    (arrive : ∀ arrival ∈ arrivals, ArrivalSound a.graph arrival) (leads : a.graph.Carries Operator.continues control)
    (binds : BindingSound a.graph binding) (run : mergeVariable label arrivals control binding entry a = .ok final b) :
    Sound held b ∧ Graph.Grown a.graph b.graph ∧ b.current = a.current ∧ b.labels = a.labels ∧
      BindingSound b.graph final := by
  obtain ⟨id, info⟩ := entry
  have named : ∀ value ∈ arrivals.filterMap fun arrival => arrival.values.lookup id, a.graph.Named value := by
    intro value member
    obtain ⟨arrival, inside, found⟩ := mem_filterMap.mp member
    exact (arrive arrival inside).2 (id, value) (mem_of_lookup _ _ found)
  simp only [mergeVariable] at run
  generalize arrivals.filterMap (fun arrival => arrival.values.lookup id) = values at named run
  split at run
  · have unsets : ∀ {m : Assembler}, Sound held m → m.graph = a.graph → m.current = a.current → m.labels = a.labels →
        (setVariable id none >>= fun _ => pure binding) m = .ok final b → Sound held b ∧ Graph.Grown a.graph b.graph ∧
          b.current = a.current ∧ b.labels = a.labels ∧ BindingSound b.graph final := by
      intro m kept graph current labels done
      simp only [runs_bind, runs_pure] at done
      obtain ⟨_, _, stored, rfl, rfl⟩ := done
      obtain ⟨last, same, here, there⟩ := set_variable_runs kept (by simp) stored
      rw [same, graph, here, there]
      exact ⟨last, a.graph.grown_refl, current, labels, binds⟩
    obtain ⟨_, _, tested, rest⟩ := runs_bind.mp run
    cases tested
    split at rest
    · obtain ⟨_, m, reported, rest⟩ := runs_bind.mp rest
      obtain ⟨kept, graph, current, labels, _⟩ := report_sound held sound reported
      exact unsets kept graph current labels rest
    · exact unsets sound rfl rfl rfl rest
  · split at run
    · simp only [runs_bind, runs_pure] at run
      obtain ⟨phi, middle, made, _, _, stored, rfl, rfl⟩ := run
      obtain ⟨kept, added⟩ := add_phi_sound rfl sound named leads made
      obtain ⟨final, graph, current, labels⟩ := set_variable_runs kept
        (fun node same => Option.some.inj same ▸ added.named sound) stored
      refine ⟨final, graph ▸ added.grown, current.trans added.current, labels.trans added.labels, ?_⟩
      have wider := binding_grown added.grown binds
      rw [graph]
      exact ⟨wider.1, forall_mem_append.mpr ⟨wider.2, forall_mem_singleton.mpr (added.carries rfl)⟩⟩
    · simp only [runs_bind, runs_pure] at run
      obtain ⟨_, _, stored, rfl, rfl⟩ := run
      obtain ⟨final, graph, current, labels⟩ := set_variable_runs sound
        (fun node same => named node (mem_of_getLast? same)) stored
      exact ⟨final, graph ▸ a.graph.grown_refl, current, labels, graph ▸ binds⟩

theorem merge_variables_run {live : List (VariableId × VariableInfo)} (sound : Sound held a)
    (arrive : ∀ arrival ∈ arrivals, ArrivalSound a.graph arrival) (leads : a.graph.Carries Operator.continues control)
    (binds : BindingSound a.graph binding) (run : live.foldlM (mergeVariable label arrivals control) binding a = .ok final b) :
    Sound held b ∧ Graph.Grown a.graph b.graph ∧ b.current = a.current ∧ b.labels = a.labels ∧
      BindingSound b.graph final := by
  induction live generalizing a binding with
  | nil =>
    obtain ⟨rfl, rfl⟩ := runs_pure.mp run
    exact ⟨sound, a.graph.grown_refl, rfl, rfl, binds⟩
  | cons entry rest ih =>
    obtain ⟨next, middle, first, later⟩ := runs_bind.mp run
    obtain ⟨kept, grown, current, labels, wider⟩ := merge_variable_sound sound arrive leads binds first
    obtain ⟨last, further, here, there, bound⟩ := ih kept (fun arrival member => arrival_grown grown (arrive arrival member))
      (grown.carries _ continues_by_family control leads) wider later
    exact ⟨last, grown.trans further, here.trans current, there.trans labels, bound⟩

theorem add_merge_sound (kind : op = .merge ∨ op = .loop) {controls : List NodeId} (sound : Sound held a)
    (lead : ∀ control ∈ controls, a.graph.Carries Operator.continues control)
    (run : addNode (.control (op count)) controls a = .ok id b) :
    Sound (id :: held) b ∧ Added (.control (op count)) controls id a b ∧ b.graph.Carries Operator.continues id ∧
      ∀ control ∈ controls, b.graph.Used control := by
  have inner : Operator.control (op count) ≠ .control .start := by
    rcases kind with rfl | rfl <;> simp
  have first : (Operator.control (op count)).layout.firstControl = 0 := by
    rcases kind with rfl | rfl <;> rfl
  obtain ⟨kept, added⟩ := add_node_sound sound
    (fun control member => a.graph.wired_named sound.wired (lead control member) fun _ => rfl)
    (fun control member => lead control (mem_of_mem_drop member)) inner run
  refine ⟨kept, added, added.carries (by rcases kind with rfl | rfl <;> rfl), fun control member => added.used control ?_⟩
  rw [first]
  exact member

structure Joined (held : List NodeId) (arrivals : List Arrival) (control : NodeId) (a b : Assembler) : Prop where
  sound : Sound (control :: held) b
  grown : Graph.Grown a.graph b.graph
  current : b.current = a.current
  labels : b.labels = a.labels
  leads : b.graph.Carries Operator.continues control
  used : ∀ arrival ∈ arrivals, b.graph.Used arrival.position.control ∨ arrival.position.control = control

theorem joined_alone {arrival : Arrival} (sound : Sound held a)
    (leads : a.graph.Carries Operator.continues arrival.position.control) :
    Joined held [arrival] arrival.position.control a a :=
  { sound := sound.weaken _ fun _ member => mem_cons_of_mem _ member
    grown := a.graph.grown_refl
    current := rfl
    labels := rfl
    leads := leads
    used := fun _ member => .inr (mem_singleton.mp member ▸ rfl) }

theorem joined_merge (kind : op = .merge ∨ op = .loop) (sound : Sound held a)
    (lead : ∀ arrival ∈ arrivals, a.graph.Carries Operator.continues arrival.position.control)
    (run : addNode (.control (op count)) (arrivals.map fun arrival => arrival.position.control) a = .ok id b) :
    Joined held arrivals id a b := by
  have known : ∀ control ∈ arrivals.map fun arrival => arrival.position.control,
      a.graph.Carries Operator.continues control := by
    intro control member
    obtain ⟨arrival, inside, rfl⟩ := mem_map.mp member
    exact lead arrival inside
  obtain ⟨kept, added, leads, used⟩ := add_merge_sound kind sound known run
  exact
    { sound := kept
      grown := added.grown
      current := added.current
      labels := added.labels
      leads := leads
      used := fun arrival member => .inl (used _ (mem_map_of_mem member)) }

-- With the control of the join in hand: phis are added, the label is bound, and the block goes on.
def joinAt (id : LabelId) (label : LabelInfo) (first : Arrival) (rest : List Arrival) (merge : Option NodeId) : Assembly Unit := do
  let effectPhi ← mergeEffects label.kind merge ((first :: rest).map fun arrival => arrival.position.effect)
  let binding ← (← get).liveVariables.foldlM (mergeVariable label (first :: rest) (merge.getD first.position.control))
    { paths := (first :: rest).length, merge := merge, effectPhi := effectPhi }
  setLabelState id (.bound binding)
  setCurrent (some ⟨effectPhi.getD first.position.effect, merge.getD first.position.control⟩)

theorem bind_arrivals_joins {id : LabelId} {first : Arrival} {rest : List Arrival}
    (run : bindArrivals id label (first :: rest) a = .ok result b) :
    (∃ (op : UInt32 → ControlOp) (merge : NodeId) (m : Assembler), (op = .merge ∨ op = .loop) ∧ addNode (.control (op (UInt32.ofNat (first :: rest).length)))
        ((first :: rest).map fun arrival => arrival.position.control) a = .ok merge m ∧
        joinAt id label first rest (some merge) m = .ok result b) ∨
      label.kind ≠ .loop ∧ rest = [] ∧ joinAt id label first [] none a = .ok result b := by
  simp only [bindArrivals] at run
  split at run
  · obtain ⟨_, m, mapped, goes⟩ := runs_bind.mp run
    obtain ⟨merge, made, rfl⟩ := runs_map.mp mapped
    exact .inl ⟨.loop, merge, m, .inr rfl, made, goes⟩
  rename_i plain
  split at run
  · rename_i alone
    rw [List.isEmpty_iff] at alone
    subst alone
    exact .inr ⟨plain, rfl, run⟩
  · obtain ⟨_, m, mapped, goes⟩ := runs_bind.mp run
    obtain ⟨merge, made, rfl⟩ := runs_map.mp mapped
    exact .inl ⟨.merge, merge, m, .inl rfl, made, goes⟩

theorem join_continues (id : LabelId) (found label : LabelInfo) (first : Arrival) (rest : List Arrival) (merge : Option NodeId)
    (m : Assembler) (result : Unit) (read : a.labels.get? id = some found)
    (state : found.state = .waiting (first :: rest)) (closed : a.current = none) (sound : Sound held a)
    (joined : Joined held (first :: rest) (merge.getD first.position.control) a m)
    (run : joinAt id label first rest merge m = .ok result b) : Sound held b ∧ Graph.Grown a.graph b.graph := by
  have arrive := sound.waiting id found _ read state
  have known : ∀ effect ∈ (first :: rest).map fun arrival => arrival.position.effect, m.graph.Named effect := by
    intro effect member
    obtain ⟨arrival, inside, rfl⟩ := mem_map.mp member
    exact joined.grown.named (arrive arrival inside).1.1
  simp only [joinAt, runs_bind, runs_get, setLabelState, setCurrent, runs_modify] at run
  obtain ⟨phi, threaded, effects, _, _, ⟨rfl, rfl⟩, binding, final, folded, _, _, rfl, rfl⟩ := run
  obtain ⟨chained, grown, current, labels, phis⟩ := merge_effects_sound joined.sound known
    (fun control same => by subst same; exact joined.leads) effects
  have lead := grown.carries _ continues_by_family _ joined.leads
  obtain ⟨kept, further, here, there, binds⟩ := merge_variables_run chained
    (fun arrival member => arrival_grown (joined.grown.trans grown) (arrive arrival member)) lead
    ⟨fun id same => (phis id same).1, by simp⟩ folded
  have reads : final.labels.get? id = some found := by rw [there, labels, joined.labels, read]
  have settled := settle_sound binding (merge.getD first.position.control :: held) reads kept binds (fun _ member => member) (by
      intro arrivals waiting arrival member
      rw [state] at waiting
      cases waiting
      refine (joined.used arrival member).imp (fun used => further.used _ (grown.used _ used)) fun same => ?_
      exact same ▸ mem_cons_self)
  refine ⟨settled.reopen ⟨phi.getD first.position.effect, merge.getD first.position.control⟩ held rfl ?_ ⟨?_, ?_⟩,
    joined.grown.trans (grown.trans further)⟩
  · intro former open_
    rw [show final.current = none by rw [here, current, joined.current, closed]] at open_
    cases open_
  · cases phi with
    | none => exact further.named (grown.named (known _ mem_cons_self))
    | some phi => exact further.named (phis phi rfl).2
  · exact further.carries _ continues_by_family _ lead

theorem bind_arrivals_sound {id : LabelId} {found : LabelInfo} (read : a.labels.get? id = some found)
    (state : found.state = .waiting arrivals) (closed : a.current = none) (sound : Sound held a)
    (run : bindArrivals id label arrivals a = .ok result b) : Sound held b ∧ Graph.Grown a.graph b.graph := by
  cases arrivals with
  | nil =>
    simp only [bindArrivals, setLabelState, setCurrent, runs_bind, runs_modify, runs_get] at run
    obtain ⟨_, _, rfl, _, _, rfl, _, _, ⟨rfl, rfl⟩, unset⟩ := run
    have settled := settle_sound { paths := 0 } held read sound ⟨by simp, by simp⟩ (fun _ member => member) (by
      intro arrivals waiting
      rw [state] at waiting
      cases waiting
      simp)
    have shut := settled.congr { a with
      labels := a.labels.modify id fun info => { info with state := .bound { paths := 0 } }
      current := none } rfl closed.symm rfl rfl
    have all := preserves_for_m [] a.liveVariables (fun entry => setVariable entry.1 none) fun entry _ =>
      preserves_set_variable entry.1 none
    obtain ⟨kept, grown, _⟩ := all held _ _ _ shut (by simp) unset
    exact ⟨kept, grown⟩
  | cons first rest =>
    have lead : ∀ arrival ∈ first :: rest, a.graph.Carries Operator.continues arrival.position.control :=
      fun arrival member => (sound.waiting id found _ read state arrival member).1.2
    rcases bind_arrivals_joins run with ⟨op, merge, m, kind, made, goes⟩ | ⟨_, rfl, goes⟩
    · exact join_continues id found label first rest (some merge) m result read state closed sound
        (joined_merge kind sound lead made) goes
    · exact join_continues id found label first [] none a result read state closed sound
        (joined_alone sound (lead first mem_cons_self)) goes

theorem bind_closed_sound {id : LabelId} {info : LabelInfo} (sound : Sound held a) (closed : a.current = none)
    (run : (labelInfo id >>= fun found => match found.state with
      | .waiting arrivals => bindArrivals id info arrivals
      | .bound _ => pure ()) a = .ok result b) : Sound held b ∧ Graph.Grown a.graph b.graph := by
  obtain ⟨found, _, labelled, rest⟩ := runs_bind.mp run
  obtain ⟨read, rfl⟩ := label_info_runs labelled
  cases state : found.state with
  | waiting arrivals =>
    rw [state] at rest
    exact bind_arrivals_sound read state closed sound rest
  | bound binding =>
    rw [state] at rest
    cases rest
    exact ⟨sound, a.graph.grown_refl⟩

theorem preserves_bind_label (inputs : List NodeId) (id : LabelId) : Preserves inputs (Assembly.bind id) fun _ => [] := by
  intro held a result b sound _ run
  obtain ⟨info, _, labelled, rest⟩ := runs_bind.mp run
  obtain ⟨_, rfl⟩ := label_info_runs labelled
  split at rest
  · obtain ⟨kept, graph, _⟩ := report_sound held sound rest
    exact ⟨kept, graph ▸ a.graph.grown_refl, by simp⟩
  obtain ⟨_, _, got, rest⟩ := runs_bind.mp rest
  cases got
  cases open_ : a.current with
  | none =>
    rw [open_] at rest
    obtain ⟨final, grown⟩ := bind_closed_sound sound open_ rest
    exact ⟨final, grown, by simp⟩
  | some position =>
    rw [open_] at rest
    obtain ⟨_, _, shut, rest⟩ := runs_bind.mp rest
    cases shut
    obtain ⟨_, m, arrived, rest⟩ := runs_bind.mp rest
    obtain ⟨kept, grown, current⟩ := arrive_sound position (sound.close fun _ => open_)
      (sound.current position open_) arrived
    obtain ⟨final, further⟩ := bind_closed_sound kept current rest
    exact ⟨final, grown.trans further, by simp⟩

end SeaOfNodes.Assembly
