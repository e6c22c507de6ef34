import SeaOfNodes.Proofs.Assembler.BackEdges

/-! Every phi that an assembler makes keeps in step with the paths into its merge, as long as its variable is in scope. -/

namespace SeaOfNodes

open List SeaOfNodes.Graph

variable {descriptor : CallDescriptor} {config : AssemblerConfig} {a : Assembler}

namespace Assembly

open Assembler

variable {a b : Assembler}

section

variable {op : Operator} {joints : LabelId → Option Joint} {label found : LabelInfo} {count : UInt32} {values : List NodeId}
  {binding : Binding} {result : Unit} {arrivals : List Arrival} {control : NodeId} {merge : Option NodeId}

theorem add_node_pushed {inputs : List NodeId} {id : NodeId} (run : addNode op inputs a = .ok id b) :
    id = a.graph.size ∧ inputs.length = op.layout.total ∧ (a.graph.push { op := op, inputs := inputs }).2.Widened b.graph [] ∧
      b.vars = a.vars ∧ b.labels = a.labels ∧ b.journal.mode = a.journal.mode ∧ (b.Quiet → a.Quiet) := by
  have counted := add_node_counted run
  simp only [addNode, runs_bind, runs_of_build, runs_pure] at run
  obtain ⟨_, _, ⟨_, done, rfl⟩, _, _, marked, rfl, rfl⟩ := run
  obtain ⟨graph, made, rfl⟩ := Build.runs_edit.mp done
  obtain ⟨_, _, same⟩ := (add_node_eq_ok _).mp made
  cases same
  rcases mark_breakpoint_runs marked with rfl | ⟨entry, rfl⟩
  · exact ⟨rfl, counted, widened_same (fun _ => rfl) (le_rfl), rfl, rfl, rfl, id⟩
  · exact ⟨rfl, counted, widened_restyle _ _ (fun _ => rfl) fun _ => rfl, rfl, rfl, rfl, id⟩

theorem merge_tied {label : LabelId} {controls : List NodeId} {id : NodeId} (tied : Tied joints a) (fresh : joints label = none)
    (shape : op.join? = some (count, 0)) (run : addNode op controls a = .ok id b) :
    Tied (Function.update joints label (some ⟨id, []⟩)) b ∧ (b.Quiet → b.graph.Join id controls.length []) ∧
      b.vars = a.vars ∧ b.labels = a.labels := by
  obtain ⟨rfl, counted, widened, vars, labels, mode, calm⟩ := add_node_pushed run
  have made : a.Quiet → _ := fun quiet => in_step_merge (tied.inStep quiet) label { op := op, inputs := controls } count fresh shape
    (counted.trans (op.join_total shape))
  refine ⟨⟨mode ▸ tied.checks, fun quiet => ?_⟩, fun quiet => ?_, vars, labels⟩
  · rw [vars]
    exact in_step_widened (made (calm quiet)).1 widened
  · exact widened.kept _ _ _ (made (calm quiet)).2

theorem phi_tied {label : LabelId} {joint : Joint} (key : Option VariableId) {id : NodeId} (tied : Tied joints a)
    (found : joints label = some joint) (shape : op.join? = some (count, 1))
    (paths : a.Quiet → a.graph.Join joint.merge values.length []) (new : key ∉ joint.phis.map Prod.fst)
    (known : ∀ id, key = some id → ∃ info, a.vars.get? id = some info) (run : addNode op (values ++ [joint.merge]) a = .ok id b) :
    Tied (Function.update joints label (some { joint with phis := joint.phis ++ [(key, id)] })) b ∧
      (b.Quiet → b.graph.Join joint.merge values.length []) ∧ b.vars = a.vars ∧ b.labels = a.labels := by
  obtain ⟨rfl, counted, widened, vars, labels, mode, calm⟩ := add_node_pushed run
  rw [op.join_total shape, length_append, length_singleton, Nat.add_right_cancel_iff] at counted
  refine ⟨⟨mode ▸ tied.checks, fun quiet => ?_⟩, fun quiet => ?_, vars, labels⟩
  · rw [vars]
    exact in_step_widened (in_step_phi (tied.inStep (calm quiet)) found shape rfl counted (paths (calm quiet)) new known) widened
  · exact widened.kept _ _ _ (join_push _ (paths (calm quiet)))

structure Binds (base : LabelId → Option Joint) (id : LabelId) (paths : Nat) (binding : Binding) (a : Assembler) : Prop where
  tied : Tied (Function.update base id binding.joint?) a
  merge : a.Quiet → ∀ merge, binding.merge = some merge → a.graph.Join merge paths []

variable (base : LabelId → Option Joint) (id : LabelId)

theorem binds_vars {paths : Nat} {var : VariableId} {value : Option NodeId} (binds : Binds base id paths binding a)
    (run : setVariable var value a = .ok result b) :
    Binds base id paths binding b ∧ b.labels = a.labels ∧
      ∀ other, (∃ info, a.vars.get? other = some info) → ∃ info, b.vars.get? other = some info := by
  cases run
  have later : ∀ other info, a.vars.get? other = some info → ∃ next,
      (a.vars.modify var fun info => { info with value := value }).get? other = some next ∧
        (info.live = false → next.live = false) := by
    intro other info read
    rw [Pool.get_modify]
    split
    · rename_i same
      rw [← same, read]
      exact ⟨_, rfl, fun dead => dead⟩
    · exact ⟨info, read, fun dead => dead⟩
  refine ⟨⟨binds.tied.revars later, binds.merge⟩, rfl, ?_⟩
  rintro other ⟨info, read⟩
  obtain ⟨next, there, _⟩ := later other info read
  exact ⟨next, there⟩

theorem differ_single (few : values.length ≤ 1) : differ values = false := by
  match values with
  | [] => rfl
  | [value] => rfl
  | _ :: _ :: _ => simp at few

theorem merge_variable_binds {next : Binding} {entry : VariableId × VariableInfo}
    (binds : Binds base id arrivals.length binding a) (leads : ∀ merge, binding.merge = some merge → control = merge)
    (single : binding.merge = none → arrivals.length ≤ 1 ∧ label.kind ≠ .loop) (new : entry.1 ∉ binding.phis.map Prod.fst)
    (known : ∃ info, a.vars.get? entry.1 = some info) (run : mergeVariable label arrivals control binding entry a = .ok next b) :
    Binds base id arrivals.length next b ∧ b.labels = a.labels ∧ next.merge = binding.merge ∧
      (∀ other ∈ next.phis.map Prod.fst, other = entry.1 ∨ other ∈ binding.phis.map Prod.fst) ∧
      ∀ other, (∃ info, a.vars.get? other = some info) → ∃ info, b.vars.get? other = some info := by
  obtain ⟨var, info⟩ := entry
  -- The variable is set, and no phi was made.
  have plain : ∀ {c : Assembler} {value : Option NodeId} {result : Unit} {later : Binding},
      Binds base id arrivals.length binding c → c.labels = a.labels → c.vars = a.vars → setVariable var value c = .ok result b →
      later.merge = binding.merge → later.effectPhi = binding.effectPhi → later.phis = binding.phis →
      Binds base id arrivals.length later b ∧ b.labels = a.labels ∧ later.merge = binding.merge ∧
        (∀ other ∈ later.phis.map Prod.fst, other = var ∨ other ∈ binding.phis.map Prod.fst) ∧
        ∀ other, (∃ info, a.vars.get? other = some info) → ∃ info, b.vars.get? other = some info := by
    intro c value result later before labels vars done merge effect phis
    obtain ⟨after, same, kept⟩ := binds_vars base id before done
    have joint : later.joint? = binding.joint? := by rw [Binding.joint?, Binding.slots, merge, effect, phis]; rfl
    refine ⟨⟨joint ▸ after.tied, merge ▸ after.merge⟩, same.trans labels, merge, ?_, ?_⟩
    · rw [phis]
      exact fun other member => .inr member
    · rw [← vars]
      exact kept
  rw [mergeVariable] at run
  dsimp only at run
  split at run
  · -- Some path does not bring the variable.
    have reported : ∀ {c : Assembler} {result : Unit} (violation : Violation), report violation a = .ok result c →
        Binds base id arrivals.length binding c ∧ c.labels = a.labels ∧ c.vars = a.vars := by
      intro c result violation done
      obtain ⟨loud, mode, _, vars, labels⟩ := report_loud binds.tied.checks done
      exact ⟨⟨⟨mode ▸ binds.tied.checks, fun quiet => absurd quiet loud⟩, fun quiet => absurd quiet loud⟩, labels, vars⟩
    obtain ⟨_, _, tested, rest⟩ := runs_bind.mp run
    cases tested
    split at rest
    · simp only [runs_bind, runs_pure] at rest
      obtain ⟨_, c, loud, _, _, set, rfl, rfl⟩ := rest
      obtain ⟨kept, labels, vars⟩ := reported _ loud
      exact plain kept labels vars set rfl rfl rfl
    · simp only [runs_bind, runs_pure] at rest
      obtain ⟨_, _, set, rfl, rfl⟩ := rest
      exact plain binds rfl rfl set rfl rfl rfl
  · rename_i all
    simp only [ne_eq, Decidable.not_not] at all
    split at run
    · rename_i joins
      simp only [runs_bind, runs_pure] at run
      obtain ⟨phi, c, added, _, d, set, rfl, rfl⟩ := run
      rcases Option.eq_none_or_eq_some binding.merge with merges | ⟨merge, merges⟩
      · obtain ⟨few, plainly⟩ := single merges
        rw [differ_single (by omega)] at joins
        simp [plainly] at joins
      obtain rfl := leads merge merges
      have joint : binding.joint? = some ⟨control, binding.slots⟩ := by rw [Binding.joint?, merges]; rfl
      have found : Function.update base id binding.joint? id = some ⟨control, binding.slots⟩ := by
        rw [Function.update_self, joint]
      obtain ⟨tied, paths, vars, labels⟩ := phi_tied (some var) binds.tied found rfl
        (fun quiet => all ▸ binds.merge quiet control merges) (fun member => by
          obtain ⟨⟨key, other⟩, there, same⟩ := mem_map.mp member
          obtain ⟨impossible, _⟩ | ⟨_, rfl, listed⟩ := (binding.mem_slots key other).mp there
          · rw [impossible] at same
            cases same
          · cases same
            exact new (mem_map.mpr ⟨_, listed, rfl⟩)) (fun other same => Option.some.inj same ▸ known) added
      have longer : Binding.joint? { binding with phis := binding.phis ++ [(var, phi)] } =
          some ⟨control, binding.slots ++ [(some var, phi)]⟩ := by
        simp [Binding.joint?, Binding.slots, merges]
      rw [Function.update_idem, ← longer] at tied
      obtain ⟨final, same, kept⟩ := binds_vars base id ⟨tied, fun quiet merge bound => by
          obtain rfl : control = merge := Option.some.inj (merges.symm.trans bound)
          exact all ▸ paths quiet⟩ set
      refine ⟨final, same.trans labels, rfl, ?_, ?_⟩
      · intro other member
        rw [map_append, mem_append] at member
        exact member.symm.imp_left mem_singleton.mp
      · rw [← vars]
        exact kept
    · simp only [runs_bind, runs_pure] at run
      obtain ⟨_, _, set, rfl, rfl⟩ := run
      exact plain binds rfl rfl set rfl rfl rfl

theorem merge_variables_bind {final : Binding} {live : List (VariableId × VariableInfo)}
    (binds : Binds base id arrivals.length binding a) (leads : ∀ merge, binding.merge = some merge → control = merge)
    (single : binding.merge = none → arrivals.length ≤ 1 ∧ label.kind ≠ .loop) (distinct : (live.map Prod.fst).Nodup)
    (new : ∀ entry ∈ live, entry.1 ∉ binding.phis.map Prod.fst) (known : ∀ entry ∈ live, ∃ info, a.vars.get? entry.1 = some info)
    (run : live.foldlM (mergeVariable label arrivals control) binding a = .ok final b) :
    Binds base id arrivals.length final b ∧ b.labels = a.labels := by
  induction live generalizing a binding with
  | nil =>
    cases run
    exact ⟨binds, rfl⟩
  | cons entry rest ih =>
    obtain ⟨next, middle, first, later⟩ := runs_bind.mp run
    obtain ⟨apart, others⟩ := nodup_cons.mp distinct
    obtain ⟨step, labels, merge, phis, kept⟩ := merge_variable_binds base id binds
      leads single (new entry mem_cons_self) (known entry mem_cons_self) first
    obtain ⟨last, same⟩ := ih step (merge ▸ leads) (merge ▸ single) others (fun other member listed => by
        rcases phis other.1 listed with here | before
        · exact apart (here ▸ mem_map.mpr ⟨other, member, rfl⟩)
        · exact new other (mem_cons_of_mem _ member) before)
      (fun other member => kept other.1 (known other (mem_cons_of_mem _ member))) later
    exact ⟨last, same.trans labels⟩

theorem merge_effects_bind {kind : LabelKind} {effects : List NodeId} {effectPhi : Option NodeId}
    (binds : Binds base id effects.length { paths := effects.length, merge := merge } a)
    (run : mergeEffects kind merge effects a = .ok effectPhi b) :
    Binds base id effects.length { paths := effects.length, merge := merge, effectPhi := effectPhi } b ∧
      b.labels = a.labels ∧ b.vars = a.vars := by
  have rests : (pure none : Assembly (Option NodeId)) a = .ok effectPhi b →
      Binds base id effects.length { paths := effects.length, merge := merge, effectPhi := effectPhi } b ∧
        b.labels = a.labels ∧ b.vars = a.vars := by
    intro done
    cases done
    exact ⟨binds, rfl, rfl⟩
  cases merge with
  | none => exact rests run
  | some merge =>
    rw [mergeEffects] at run
    split at run
    · obtain ⟨phi, added, rfl⟩ := runs_map.mp run
      have found : Function.update base id (Binding.joint? { paths := effects.length, merge := some merge }) id =
          some ⟨merge, []⟩ := Function.update_self ..
      obtain ⟨tied, paths, vars, labels⟩ := phi_tied none binds.tied found rfl
        (fun quiet => binds.merge quiet merge rfl) (by simp) (by simp) added
      rw [Function.update_idem] at tied
      exact ⟨⟨tied, fun quiet other same => Option.some.inj same ▸ paths quiet⟩, labels, vars⟩
    · exact rests run

-- What is known of the label in the end is what was made for it.
theorem settle_tied {paths : Nat} {c : Assembler} (current : Option Position) (read : a.labels.get? id = some found)
    (labels : c.labels = a.labels) (binds : Binds a.joints id paths binding c) :
    ∀ d, d = { c with
        labels := c.labels.modify id fun info => { info with state := .bound binding }
        current := current } → Tied d.joints d := by
  rintro _ rfl
  have known := joints_set c id found (.bound binding) (by rw [labels, read])
  rw [joints_labels labels] at known
  rw [show joints { c with
    labels := c.labels.modify id fun info => { info with state := .bound binding }
    current := current } = _ from known]
  exact ⟨binds.tied.checks, binds.tied.inStep⟩

theorem join_continues_tied (first : Arrival) (rest : List Arrival) {m : Assembler} (read : a.labels.get? id = some found)
    (labels : m.labels = a.labels) (binds : Binds a.joints id (first :: rest).length { paths := (first :: rest).length, merge := merge } m)
    (single : merge = none → (first :: rest).length ≤ 1 ∧ label.kind ≠ .loop)
    (run : joinAt id label first rest merge m = .ok result b) : Tied b.joints b := by
  simp only [joinAt, runs_bind, runs_get, setLabelState, setCurrent, runs_modify] at run
  obtain ⟨effectPhi, c, effects, _, _, ⟨rfl, rfl⟩, binding, d, folded, _, _, rfl, rfl⟩ := run
  have length : ((first :: rest).map fun arrival => arrival.position.effect).length = (first :: rest).length := length_map _
  obtain ⟨threaded, same, _⟩ := merge_effects_bind a.joints id (by rw [length]; exact binds) effects
  rw [length] at threaded
  obtain ⟨final, kept⟩ := merge_variables_bind a.joints id threaded (fun other bound => by
      obtain rfl : merge = some other := bound
      rfl) single (live_variables_nodup c) (by simp) (fun entry live => ⟨entry.2, live_variable_read live⟩) folded
  exact settle_tied id _ read (kept.trans (same.trans labels)) final _ rfl

theorem bind_arrivals_tied (tied : Tied a.joints a) (read : a.labels.get? id = some found)
    (state : found.state = .waiting arrivals) (run : bindArrivals id label arrivals a = .ok result b) : Tied b.joints b := by
  have fresh : a.joints id = none := by
    rw [joints, read]
    simp [LabelInfo.joint?, state]
  have alone : ∀ paths, Binds a.joints id paths { paths := paths } a := fun paths =>
    ⟨by rw [show Binding.joint? { paths := paths } = a.joints id from fresh.symm, Function.update_eq_self]; exact tied, by rintro _ _ ⟨⟩⟩
  have merged : ∀ (op : Operator) (count : UInt32) (controls : List NodeId) (merge : NodeId) (m : Assembler),
      op.join? = some (count, 0) → controls.length = arrivals.length → addNode op controls a = .ok merge m →
      Binds a.joints id arrivals.length { paths := arrivals.length, merge := some merge } m ∧ m.labels = a.labels := by
    intro op count controls merge m shape length made
    obtain ⟨kept, paths, _, labels⟩ := merge_tied tied fresh shape made
    exact ⟨⟨kept, fun quiet other same => Option.some.inj same ▸ length ▸ paths quiet⟩, labels⟩
  cases arrivals with
  | nil =>
    simp only [bindArrivals, setLabelState, setCurrent, runs_bind, runs_modify, runs_get] at run
    obtain ⟨_, _, rfl, _, _, rfl, _, _, ⟨rfl, rfl⟩, unset⟩ := run
    exact straight_for_m keeps_strokes a.liveVariables (fun entry => setVariable entry.1 none)
      (fun entry => keeps_iff_straight.mp (keeps_set_variable entry.1 none)) _ _ _ unset
      (settle_tied id none read rfl (alone 0) _ rfl)
  | cons first rest =>
    rcases bind_arrivals_joins run with ⟨op, merge, m, kind, made, goes⟩ | ⟨plain, rfl, goes⟩
    · obtain ⟨binds, labels⟩ := merged _ _ _ merge m (by rcases kind with rfl | rfl <;> rfl) (length_map _) made
      exact join_continues_tied id first rest read labels binds (by rintro ⟨⟩) goes
    · exact join_continues_tied id first [] read rfl (alone 1) (fun _ => ⟨le_refl 1, plain⟩) goes

theorem bind_closed_tied {info : LabelInfo} (tied : Tied a.joints a)
    (run : (labelInfo id >>= fun found => match found.state with
      | .waiting arrivals => bindArrivals id info arrivals
      | .bound _ => pure ()) a = .ok result b) : Tied b.joints b := by
  obtain ⟨found, _, labelled, rest⟩ := runs_bind.mp run
  obtain ⟨read, rfl⟩ := label_info_runs labelled
  cases state : found.state with
  | waiting arrivals =>
    rw [state] at rest
    exact bind_arrivals_tied id tied read state rest
  | bound binding =>
    rw [state] at rest
    cases rest
    exact tied

theorem keeps_bind_label : Keeps (Assembly.bind id) := by
  intro a result b tied run
  obtain ⟨info, _, labelled, rest⟩ := runs_bind.mp run
  obtain ⟨_, rfl⟩ := label_info_runs labelled
  split at rest
  · exact straight_report keeps_strokes _ a _ b rest tied
  obtain ⟨_, _, got, rest⟩ := runs_bind.mp rest
  cases got
  cases open_ : a.current with
  | none =>
    rw [open_] at rest
    exact bind_closed_tied id tied rest
  | some position =>
    rw [open_] at rest
    obtain ⟨_, _, shut, rest⟩ := runs_bind.mp rest
    obtain ⟨_, m, arrived, rest⟩ := runs_bind.mp rest
    have closed := keeps_strokes.set_current none a _ _ shut tied
    exact bind_closed_tied id (keeps_arrive id position _ _ m closed arrived) rest

end

theorem keeps_steers : Steers fun a b => Tied a.joints a → Tied b.joints b where
  newVariable name representation := keeps_iff_straight.mp (keeps_new_variable name representation)
  setVariable id value := keeps_iff_straight.mp (keeps_set_variable id value)
  releaseVariable id := keeps_iff_straight.mp (keeps_release_variable id)
  newLabel kind declared := keeps_iff_straight.mp (keeps_new_label kind declared)
  arrive id position := keeps_iff_straight.mp (keeps_arrive id position)
  bind id := keeps_iff_straight.mp (keeps_bind_label id)

theorem keeps_command (command : Command) : Keeps command.run :=
  keeps_iff_straight.mpr (Steers.command keeps_strokes keeps_steers (straight_call keeps_strokes.discipline trivial) command)

end Assembly

namespace Assembler

variable {journal : Journal}

-- What holds of each parameter and of the first nodes holds of the nodes that an assembler starts with.
theorem parameters_nodes {good : Operator → Prop} (parameter : ∀ index, good (.parameter index)) {indices : List Nat}
    {graph next : Graph} {known parameters : List NodeId} (first : ∀ id node, graph.node? id = some node → good node.op)
    (run : indices.foldlM (fun (parameters, graph) index => do
      let (id, graph) ← Graph.addNode graph (.parameter (UInt32.ofNat index)) [Graph.start]
      return (parameters ++ [id], graph)) (known, graph) = (.ok (parameters, next) : Except Fault (List NodeId × Graph))) :
    graph.size ≤ next.size ∧ ∀ id node, next.node? id = some node → good node.op := by
  induction indices generalizing graph known with
  | nil =>
    cases run
    exact ⟨le_rfl, first⟩
  | cons index rest ih =>
    obtain ⟨⟨_, _⟩, begun, later⟩ := bind_eq_ok.mp run
    obtain ⟨⟨id, middle⟩, made, same⟩ := bind_eq_ok.mp begun
    cases same
    obtain ⟨_, _, pushed⟩ := graph.add_node_eq_ok.mp made
    obtain rfl := congrArg Prod.snd pushed
    obtain ⟨size, last⟩ := ih (by
      intro id node read
      rw [node_push] at read
      split at read
      · cases read
        exact parameter _
      · exact first id node read) later
    rw [size_push] at size
    exact ⟨Nat.le_of_succ_le size, last⟩

theorem start_nodes (good : Operator → Prop) (start : good (.control .start)) (stop : good (.control (.stop 0)))
    (parameter : ∀ index, good (.parameter index)) (run : Assembler.start descriptor config journal = .ok a) :
    a.journal = journal ∧ 2 ≤ a.graph.size ∧ ∀ id node, a.graph.node? id = some node → good node.op := by
  simp only [Assembler.start, Graph.withCapacity, bind_eq_ok, pure_eq_ok] at run
  obtain ⟨_, ⟨_, _, rfl⟩, ⟨parameters, graph⟩, added, rfl⟩ := run
  refine ⟨rfl, parameters_nodes parameter (fun id node read => ?_) added⟩
  rcases empty_nodes read with ⟨_, rfl⟩ | ⟨_, rfl⟩
  · exact start
  · exact stop

theorem start_tied (checks : journal.mode ≠ .silent) (run : Assembler.start descriptor config journal = .ok a) :
    Tied a.joints a := by
  -- Parameters join no paths.
  obtain ⟨kept, size, alone⟩ := start_nodes (fun op => op.join? = none) rfl rfl (fun _ => rfl) run
  have none_ : ∀ {id node count after}, a.graph.node? id = some node → node.op.join? = some (count, after) → False := by
    intro id node count after read shape
    rw [alone id node read] at shape
    cases shape
  have unlabelled : a.joints = fun _ => none := by
    simp only [start, bind_eq_ok, pure_eq_ok] at run
    obtain ⟨_, _, _, _, rfl⟩ := run
    rfl
  rw [unlabelled]
  exact ⟨kept ▸ checks, fun _ =>
    { room := size
      exit := alone stop
      merges := fun id node count read shape => (none_ read shape).elim
      phis := fun id node count read shape => (none_ read shape).elim
      fed := by rintro _ _ ⟨⟩
      apart := by rintro _ _ _ _ ⟨⟩
      distinct := by rintro _ _ ⟨⟩
      declared := by rintro _ _ _ _ ⟨⟩ }⟩

end Assembler

inductive Assembled (descriptor : CallDescriptor) (config : AssemblerConfig) : Assembler → Prop
  | start (a : Assembler) (journal : Journal) (checks : journal.mode ≠ .silent)
      (run : Assembler.start descriptor config journal = .ok a) : Assembled descriptor config a
  | step (a b : Assembler) (command : Command) (outcome : Outcome) (before : Assembled descriptor config a)
      (run : command.run a = .ok outcome b) : Assembled descriptor config b
  | generate (a b : Assembler) (name : String) (flags : CodeFlags) (limit : Nat) (code : Except CompileError Listing)
      (before : Assembled descriptor config a) (run : Assembly.generate name flags limit a = .ok code b) :
      Assembled descriptor config b

theorem Assembled.tied (assembled : Assembled descriptor config a) : Assembler.Tied a.joints a := by
  induction assembled with
  | start a journal checks run => exact Assembler.start_tied checks run
  | step a b command outcome _ run ih => exact Assembly.keeps_command command a outcome b ih run
  | generate a b name flags limit code _ run ih =>
    exact Assembly.straight_generate Assembly.keeps_strokes.discipline [] name flags limit a code b run ih

namespace Assembler

def follow (descriptor : CallDescriptor) (config : AssemblerConfig) (commands : List Command) : Option Assembler :=
  (Assembler.start descriptor config { mode := .recording }).toOption.bind fun first =>
    commands.foldlM (fun a command =>
      match command.run a with
      | .ok _ b => some b
      | .error .. => none) first

theorem follow_assembled {descriptor : CallDescriptor} {config : AssemblerConfig} {commands : List Command} {b : Assembler}
    (followed : follow descriptor config commands = some b) : Assembled descriptor config b := by
  obtain ⟨a, begun, played⟩ := Option.bind_eq_some_iff.mp followed
  have before : Assembled descriptor config a := .start a _ (by decide) (ok_of_to_option _ a begun)
  clear followed begun
  induction commands generalizing a with
  | nil =>
    cases played
    exact before
  | cons command rest ih =>
    obtain ⟨next, taken, later⟩ := Option.bind_eq_some_iff.mp played
    dsimp only at taken
    split at taken
    · rename_i outcome middle run
      cases taken
      exact ih next later (.step a next command outcome before run)
    · cases taken

def releasing : List Command :=
  [.newVariable none .tagged (some 2), .newLabel .loop [0], .goto 0, .bind 0, .releaseVariable 0, .goto 0]

theorem releasing_read : ∃ a phi merge, follow (.function 1 {}) {} releasing = some a ∧ a.journal.violations = #[] ∧
      a.graph.node? 8 = some phi ∧ phi.op = .phi .tagged 1 ∧ a.graph.controlInput 8 = .ok 6 ∧
      a.graph.node? 6 = some merge ∧ merge.op = .control (.loop 2) := by
  have checks : ((follow (.function 1 {}) {} releasing).any fun a => a.journal.violations.isEmpty &&
      ((a.graph.node? 8).any fun phi => phi.op = .phi .tagged 1) && (a.graph.controlInput 8).toOption == some 6 &&
      (a.graph.node? 6).any fun merge => merge.op = .control (.loop 2)) := by
    decide +kernel
  simp only [Option.any_eq_true, Bool.and_eq_true, Array.isEmpty_iff, decide_eq_true_eq, beq_iff_eq] at checks
  obtain ⟨a, followed, ⟨⟨calm, phi, read, isPhi⟩, led⟩, merge, there, isMerge⟩ := checks
  refine ⟨a, phi, merge, followed, calm, read, isPhi, ?_, there, isMerge⟩
  cases known : a.graph.controlInput 8 with
  | error fault =>
    rw [known] at led
    cases led
  | ok control =>
    rw [known] at led
    cases led
    rfl

end Assembler

end SeaOfNodes
