import SeaOfNodes.Proofs.Creation.Emission

/-! The table of constants through every order of edits that leave the operators of constants alone. -/

namespace SeaOfNodes

open List

variable {op : Operator} {input target : NodeId} {effect control : Option NodeId} {edits : List Edit}

def Operator.constant? : Operator → Option Constant
  | .constant value => some value
  | _ => none

def Node.shown? (node : Node) : Option Constant := if node.dead then none else node.op.constant?

-- The constant that an edit asks for.
def Edit.constant? : Edit → Option Constant
  | .constant (.constant value) => some value
  | .int32Constant value => some (.int32 value)
  | .numberConstant value => some (.number value)
  | _ => none

def Edit.Regular (graph : Graph) : Edit → Prop
  | .changeOp id op => op.isConstant = false ∧ ∀ node, graph.node? id = some node → node.op.isConstant = false
  | _ => True

theorem Operator.constant_iff {value : Constant} : op.constant? = some value ↔ op = .constant value := by
  cases op <;> simp [constant?]

theorem shown_of_plain {node : Node} (plain : node.op.isConstant = false) : node.shown? = none := by
  rw [Node.shown?]
  split
  · rfl
  · rw [Option.eq_none_iff_forall_ne_some]
    intro value shown
    rw [Operator.constant_iff.mp shown] at plain
    cases plain

theorem filter_kept {found : Option NodeId} {test : NodeId → Bool} (holds : ∀ id, found = some id → test id) :
    found.filter test = found := by
  cases found with
  | none => rfl
  | some id => exact Option.filter_some_pos (holds id rfl)

namespace Graph

-- The constant that a live node stands for.
def shown? (graph : Graph) (id : NodeId) : Option Constant := (graph.node? id).bind Node.shown?

structure Cached (graph : Graph) : Prop where
  size : 2 ≤ graph.size
  exit : graph.shown? stop = none
  shown : ∀ value id, graph.constants.lookup value = some id → graph.shown? id = some value

structure Spares (old new : Graph) : Prop where
  size : old.size ≤ new.size
  table : ∀ value, new.constants.lookup value = old.constants.lookup value
  shown : ∀ id < old.size, new.shown? id = old.shown? id

variable {graph old middle new : Graph} {id : NodeId} {value : Constant} {answer : Option NodeId} {edit : Edit}

theorem shown_iff : graph.shown? id = some value ↔ graph.Denotes id value := by
  rw [shown?, Option.bind_eq_some_iff]
  constructor
  · rintro ⟨node, read, shown⟩
    rw [Node.shown?] at shown
    split at shown
    · cases shown
    · exact ⟨node, ⟨read, Bool.eq_false_iff.mpr ‹_›⟩, Operator.constant_iff.mp shown⟩
  · rintro ⟨node, ⟨read, live⟩, op⟩
    exact ⟨node, read, by rw [Node.shown?, live, op]; rfl⟩

theorem shown_inside (shown : graph.shown? id = some value) : id < graph.size := by
  obtain ⟨node, live, _⟩ := shown_iff.mp shown
  exact graph.node_lt live.1

theorem spares_refl : Spares graph graph := ⟨le_rfl, fun _ => rfl, fun _ _ => rfl⟩

theorem spares_trans (first : Spares old middle) (second : Spares middle new) : Spares old new where
  size := first.size.trans second.size
  table value := (second.table value).trans (first.table value)
  shown id inside := (second.shown id (inside.trans_le first.size)).trans (first.shown id inside)

theorem spares_cached (spares : Spares old new) (cached : old.Cached) : new.Cached where
  size := cached.size.trans spares.size
  exit := (spares.shown stop (Nat.one_lt_two.trans_le cached.size)).trans cached.exit
  shown value id found := by
    have before := cached.shown value id (spares.table value ▸ found)
    exact (spares.shown id (shown_inside before)).trans before

-- The use lists take no part in what the nodes stand for.
theorem spares_update (change : Node → Node) (nodes : new.nodes = old.nodes.modify id change)
    (table : new.constants = old.constants) (alike : ∀ node, old.node? id = some node → (change node).shown? = node.shown?) :
    Spares old new where
  size := by rw [show new.size = new.nodes.size from rfl, nodes]; exact Array.size_modify.symm.le
  table value := by rw [table]
  shown other _ := by
    rw [shown?, node?, nodes, Pool.get_modify, shown?]
    split
    · rename_i same
      subst same
      cases read : old.nodes.get? other with
      | none => rw [node?, read]; rfl
      | some node => rw [node?, read]; exact alike node read
    · rfl

theorem spares_push (graph : Graph) (node : Node) : Spares graph (graph.push node).2 where
  size := by rw [size_push]; exact Nat.le_succ _
  table value := by rw [graph.constants_push node]
  shown id inside := by rw [shown?, node_push, if_neg (inside.ne), shown?]

theorem spares_fold {α : Type} {step : Graph → α → Graph} (steps : ∀ graph item, Spares graph (step graph item)) (items : List α) :
    Spares graph (items.foldl step graph) := by
  induction items generalizing graph with
  | nil => exact spares_refl
  | cons item rest ih => exact spares_trans (steps graph item) ih

theorem spares_uses {uses : SideTable (List NodeId)} (spares : Spares old new) : Spares old { new with uses := uses } :=
  ⟨spares.size, spares.table, spares.shown⟩

theorem replace_all_uses_spares (graph : Graph) (former latter : NodeId) : Spares graph (graph.replaceAllUses former latter) := by
  rw [replaceAllUses]
  split
  · exact spares_refl
  · refine spares_uses (spares_fold (fun graph edge => ?_) _)
    exact spares_update _ rfl rfl fun _ _ => rfl

theorem replace_input_spares {index : Nat} (run : graph.replaceInput id index input = .ok new) : Spares graph new := by
  obtain ⟨_, _, run⟩ := bind_eq_ok.mp run
  split at run <;> cases run
  · exact spares_refl
  · exact spares_update _ rfl rfl fun _ _ => rfl

variable (cached : graph.Cached)

include cached

-- A killed node leaves the table, where nothing else goes by its id.
theorem kill_cases (run : graph.kill id = .ok new) : new.size = graph.size ∧
    (∀ other, new.shown? other = if other = id then none else graph.shown? other) ∧
    ∀ value, new.constants.lookup value = (graph.constants.lookup value).filter (· ≠ id) := by
  obtain ⟨node, read, run⟩ := bind_eq_ok.mp run
  have read := (graph.node_eq_ok id node).mp read
  dsimp only at run
  generalize stripped : node.inputs.foldl (fun graph input => graph.removeUse input id)
    (graph.modifyNode id fun node => { node with inputs := [], dead := true }) = bare at run
  have nodes : bare.nodes = graph.nodes.modify id fun node => { node with inputs := [], dead := true } :=
    stripped ▸ nodes_remove_uses _ node.inputs id
  have table (value : Constant) : bare.constants.lookup value = graph.constants.lookup value :=
    stripped ▸ (spares_fold (fun _ _ => spares_uses spares_refl) node.inputs).table value
  have kind (value : Constant) (found : graph.constants.lookup value = some id) : node.op = .constant value := by
    obtain ⟨again, live, op⟩ := shown_iff.mp (cached.shown value id found)
    cases read.symm.trans live.1
    exact op
  have stays (value : Constant) (apart : graph.constants.lookup value ≠ some id) :
      graph.constants.lookup value = (graph.constants.lookup value).filter (· ≠ id) :=
    (filter_kept fun other found => decide_eq_true (by rintro rfl; exact apart found)).symm
  have made : new.nodes = bare.nodes ∧
      ∀ value, new.constants.lookup value = (graph.constants.lookup value).filter (· ≠ id) := by
    split at run
    · rename_i value op
      rw [table] at run
      split at run <;> cases run
      · rename_i found
        refine ⟨rfl, fun other => ?_⟩
        by_cases same : other = value
        · subst same
          rw [found, Option.filter_some_neg (by simp)]
          refine lookup_eq_none_iff.mpr fun entry listed => ?_
          have apart := (mem_filter.mp listed).2
          simpa using Ne.symm (of_decide_eq_true apart)
        · rw [lookup_filter_ne same, table]
          exact stays other fun again => same (by rw [op] at kind; cases kind other again; rfl)
      · rename_i apart
        exact ⟨rfl, fun other => (table other).trans (stays other fun found => apart (by rw [op] at kind; cases kind other found; exact found))⟩
    · rename_i plain
      cases run
      exact ⟨rfl, fun value => (table value).trans (stays value fun found => plain value (kind value found))⟩
  refine ⟨?_, fun other => ?_, made.2⟩
  · rw [show new.size = new.nodes.size from rfl, made.1, nodes]
    exact Array.size_modify
  · rw [shown?, node?, made.1, nodes, Pool.get_modify]
    split
    · rw [show graph.nodes.get? id = some node from read]
      rfl
    · rfl

theorem kill_spares (hidden : graph.shown? id = none) (run : graph.kill id = .ok new) : Spares graph new := by
  obtain ⟨size, shown, table⟩ := kill_cases cached run
  refine ⟨size.symm.le, fun value => (table value).trans (filter_kept fun other found => decide_eq_true ?_), fun other _ => ?_⟩
  · rintro rfl
    rw [cached.shown value other found] at hidden
    cases hidden
  · rw [shown]
    split
    · rename_i same
      rw [same, hidden]
    · rfl

theorem redirect_edge_spares {edge : NodeId × Nat}
    (run : redirectEdge target effect control graph edge = .ok new) : Spares graph new := by
  obtain ⟨node, read, run⟩ := bind_eq_ok.mp run
  split at run
  · cases run
    exact spares_refl
  obtain ⟨kind, _, run⟩ := bind_eq_ok.mp run
  split at run
  · split at run
    · rename_i control _ _ _ success
      have moved := graph.replace_all_uses_spares edge.1 control
      refine spares_trans moved (kill_spares (spares_cached moved cached) ?_ run)
      have there := (graph.node_eq_ok edge.1 node).mp read
      rw [moved.shown _ (graph.node_lt there), shown?, there]
      exact shown_of_plain (by rw [success]; rfl)
    · exact replace_input_spares run
  · exact replace_input_spares run
  · cases run
    exact spares_refl
  · cases run
    exact spares_refl
  · exact replace_input_spares run

omit cached in
theorem replace_with_value_runs (run : graph.replaceWithValue id target effect control = .ok new) :
    ∃ effect control, (graph.useEdges id).foldlM (redirectEdge target effect control) graph = .ok new := by
  obtain ⟨layout, _, run⟩ := bind_eq_ok.mp run
  extract_lets toControl at run
  have rest (effect : Option NodeId) (run : toControl effect = .ok new) :
      ∃ effect control, (graph.useEdges id).foldlM (redirectEdge target effect control) graph = .ok new := by
    cases control with
    | some control => exact ⟨effect, control, run⟩
    | none =>
      dsimp only [toControl] at run
      split at run
      · obtain ⟨control, _, run⟩ := bind_eq_ok.mp run
        exact ⟨effect, control, run⟩
      · exact ⟨effect, none, run⟩
  cases effect with
  | some effect => exact rest effect run
  | none =>
    dsimp only at run
    split at run
    · obtain ⟨effect, _, run⟩ := bind_eq_ok.mp run
      exact rest effect run
    · exact rest none run

theorem replace_with_value_spares (run : graph.replaceWithValue id target effect control = .ok new) : Spares graph new := by
  obtain ⟨effect, control, run⟩ := replace_with_value_runs run
  exact fold_m_holds (fun _ => Spares graph) spares_refl (fun _ edge middle next _ reached run =>
    spares_trans reached (redirect_edge_spares (spares_cached reached cached) run)) run

-- What an edit does: it asks for a constant, it kills a node, or it spares them all.
structure Serves (edit : Edit) (old new : Graph) : Prop where
  size : old.size ≤ new.size
  cached : new.Cached
  table : ∀ value, new.constants.lookup value =
    if edit.constant? = some value then some ((old.constants.lookup value).getD old.size)
    else (old.constants.lookup value).filter (edit ≠ .kill ·)
  shown : ∀ id < old.size, new.shown? id = if edit = .kill id then none else old.shown? id

omit cached in
theorem spares_serves (cached : old.Cached) (spares : Spares old new) (asks : edit.constant? = none) (lets : ∀ id, edit ≠ .kill id) :
    Serves edit old new where
  size := spares.size
  cached := spares_cached spares cached
  table value := by rw [asks, if_neg (by simp), spares.table, filter_kept fun id _ => decide_eq_true (lets id)]
  shown id inside := by rw [if_neg (lets id), spares.shown id inside]

omit cached in
theorem serves_spares (first : Serves edit old middle) (second : Spares middle new) : Serves edit old new where
  size := first.size.trans second.size
  cached := spares_cached second first.cached
  table value := (second.table value).trans (first.table value)
  shown id inside := (second.shown id (inside.trans_le first.size)).trans (first.shown id inside)

theorem kill_serves (run : graph.kill id = .ok new) : Serves (.kill id) graph new := by
  obtain ⟨size, shown, table⟩ := kill_cases cached run
  refine ⟨size.symm.le, ⟨size ▸ cached.size, ?_, fun value other found => ?_⟩, fun value => ?_, fun other _ => ?_⟩
  · rw [shown, cached.exit, ite_self]
  · rw [table, Option.filter_eq_some_iff] at found
    rw [shown, if_neg (of_decide_eq_true found.2), cached.shown value other found.1]
  · rw [if_neg (by rintro ⟨⟩), table]
    simp only [ne_eq, Edit.kill.injEq, eq_comm]
  · simp only [shown, Edit.kill.injEq, eq_comm]

theorem constant_known (found : graph.constants.lookup value = some id) : graph.constant value = (id, graph) := by
  obtain ⟨node, live, _⟩ := shown_iff.mp (cached.shown value id found)
  rw [constant, found, Option.filter_some_pos ((graph.is_live_iff id).mpr ⟨node, live⟩)]

theorem constant_serves (asks : edit.constant? = some value) (lets : ∀ id, edit ≠ .kill id) :
    Serves edit graph (graph.constant value).2 := by
  have others (other : Constant) : (graph.constants.lookup other).filter (edit ≠ .kill ·) = graph.constants.lookup other :=
    filter_kept fun id _ => decide_eq_true (lets id)
  cases found : graph.constants.lookup value with
  | some id =>
    rw [constant_known cached found]
    refine ⟨le_rfl, cached, fun other => ?_, fun id _ => by rw [if_neg (lets id)]⟩
    rw [others, asks]
    split
    · rename_i same
      rw [← Option.some.inj same, found, Option.getD_some]
    · rfl
  | none =>
    let node : Node := { op := .constant value, inputs := [] }
    have pushed := graph.spares_push node
    have table (other : Constant) : ((value, graph.size) :: graph.constants.filter fun entry => entry.1 ≠ value).lookup other =
        if edit.constant? = some other then some ((graph.constants.lookup other).getD graph.size)
        else (graph.constants.lookup other).filter (edit ≠ .kill ·) := by
      rw [others, asks, lookup_cons]
      by_cases same : other = value
      · rw [same, if_pos rfl, found, beq_self_eq_true, Option.getD_none]
      · rw [if_neg fun again => same (Option.some.inj again).symm, beq_false_of_ne same, lookup_filter_ne same]
    rw [constant_new (by rw [found]; rfl)]
    refine ⟨pushed.size, ⟨cached.size.trans pushed.size, ?_, fun other id listed => ?_⟩, table, fun id inside => ?_⟩
    · exact (pushed.shown stop (Nat.one_lt_two.trans_le cached.size)).trans cached.exit
    · rw [table, asks] at listed
      split at listed
      · rename_i same
        cases same
        rw [found] at listed
        cases listed
        refine shown_iff.mpr ⟨node, ⟨(graph.node_push node graph.size).trans (if_pos rfl), rfl⟩, rfl⟩
      · have before := cached.shown other id (others other ▸ listed)
        exact (pushed.shown id (shown_inside before)).trans before
    · rw [if_neg (lets id)]
      exact pushed.shown id inside

theorem typed_constant_serves {type : ValueType} (asks : edit.constant? = some value)
    (lets : ∀ id, edit ≠ .kill id) : Serves edit graph (graph.typedConstant value type).2 :=
  serves_spares (constant_serves cached asks lets) (spares_update _ rfl rfl fun _ _ => rfl)

omit cached in
theorem add_node_spares {inputs : List NodeId} (run : graph.addNode op inputs = .ok (id, new)) : Spares graph new := by
  obtain ⟨_, _, made⟩ := graph.add_node_eq_ok.mp run
  cases made
  exact graph.spares_push _

omit cached in
theorem append_input_spares (run : graph.appendInput id input = .ok new) : Spares graph new := by
  obtain ⟨_, _, run⟩ := bind_eq_ok.mp run
  cases run
  exact spares_update _ rfl rfl fun _ _ => rfl

theorem merge_to_end_spares (run : graph.mergeToEnd id = .ok new) : Spares graph new := by
  obtain ⟨middle, first, run⟩ := bind_eq_ok.mp run
  cases run
  have joined := append_input_spares first
  refine spares_trans joined (spares_update _ rfl rfl fun node read => ?_)
  have hidden := (spares_cached joined cached).exit
  rw [shown?, read] at hidden
  exact (shown_of_plain rfl).trans hidden.symm

omit cached in
theorem answered {work : Except Fault Graph} (run : (none, ·) <$> work = .ok (answer, new)) : work = .ok new := by
  cases work with
  | error fault => cases run
  | ok graph => cases run; rfl

theorem apply_serves (regular : edit.Regular graph) (run : edit.apply graph = .ok (answer, new)) : Serves edit graph new := by
  have spares (spares : Spares graph new) (asks : edit.constant? = none) (lets : ∀ id, edit ≠ .kill id) :
      Serves edit graph new := spares_serves cached spares asks lets
  cases edit with
  | addNode op inputs type =>
    refine spares ?_ rfl (by simp)
    cases type with
    | none =>
      obtain ⟨⟨id, middle⟩, made, run⟩ := bind_eq_ok.mp run
      cases run
      exact add_node_spares made
    | some type =>
      obtain ⟨⟨id, middle⟩, typed, run⟩ := bind_eq_ok.mp run
      cases run
      obtain ⟨⟨id, bare⟩, made, run⟩ := bind_eq_ok.mp typed
      cases run
      exact spares_trans (add_node_spares made) (spares_update _ rfl rfl fun _ _ => rfl)
  | constant op =>
    cases op with
    | constant value =>
      cases run
      exact constant_serves cached rfl (by simp)
    | _ => cases run
  | int32Constant value =>
    cases run
    exact typed_constant_serves cached rfl (by simp)
  | numberConstant value =>
    cases run
    exact typed_constant_serves cached rfl (by simp)
  | setType id type =>
    obtain ⟨_, _, run⟩ := bind_eq_ok.mp (answered run)
    cases run
    exact spares (spares_update _ rfl rfl fun _ _ => rfl) rfl (by simp)
  | changeOp id op =>
    obtain ⟨_, _, run⟩ := bind_eq_ok.mp (answered run)
    cases run
    refine spares (spares_update _ rfl rfl fun node read => ?_) rfl (by simp)
    exact (shown_of_plain regular.1).trans (shown_of_plain (regular.2 node read)).symm
  | replaceInput id index input => exact spares (replace_input_spares (answered run)) rfl (by simp)
  | insertInput id index input =>
    obtain ⟨_, _, run⟩ := bind_eq_ok.mp (answered run)
    obtain ⟨_, _, run⟩ := bind_eq_ok.mp run
    cases run
    exact spares (spares_update _ rfl rfl fun _ _ => rfl) rfl (by simp)
  | removeInput id index =>
    obtain ⟨_, _, run⟩ := bind_eq_ok.mp (answered run)
    cases run
    exact spares (spares_update _ rfl rfl fun _ _ => rfl) rfl (by simp)
  | appendInput id input => exact spares (append_input_spares (answered run)) rfl (by simp)
  | trimInputs id count =>
    obtain ⟨node, _, run⟩ := bind_eq_ok.mp (answered run)
    cases run
    have cut : Spares graph (graph.modifyNode id fun node => { node with inputs := node.inputs.take count }) :=
      spares_update _ rfl rfl fun _ _ => rfl
    refine spares (spares_trans cut ?_) rfl (by simp)
    rw [foldr_eq_foldl_reverse]
    exact spares_fold (fun _ _ => spares_uses spares_refl) _
  | replaceAllUses former latter =>
    cases run
    exact spares (graph.replace_all_uses_spares former latter) rfl (by simp)
  | replaceWithValue id value effect control => exact spares (replace_with_value_spares cached (answered run)) rfl (by simp)
  | relaxControls id => exact spares (replace_with_value_spares cached (answered run)) rfl (by simp)
  | kill id => exact kill_serves cached (answered run)
  | mergeToEnd terminator => exact spares (merge_to_end_spares cached (answered run)) rfl (by simp)

theorem asked_runs (asks : edit.constant? = some value) :
    ∃ new, edit.apply graph = .ok (some ((graph.constants.lookup value).getD graph.size), new) := by
  have answer : (graph.constant value).1 = (graph.constants.lookup value).getD graph.size := by
    cases found : graph.constants.lookup value with
    | some id => rw [constant_known cached found, Option.getD_some]
    | none => rw [constant_new (by rw [found]; rfl), Option.getD_none]
  rw [← answer]
  cases edit with
  | constant op =>
    cases op with
    | constant other => cases asks; exact ⟨_, rfl⟩
    | _ => cases asks
  | int32Constant other => cases asks; exact ⟨_, rfl⟩
  | numberConstant other => cases asks; exact ⟨_, rfl⟩
  | _ => cases asks

omit cached

inductive Tends : Graph → List Edit → Graph → Prop where
  | rests (graph : Graph) : Tends graph [] graph
  | comments {old new : Graph} {edits : List Edit} (text : String) (later : Tends (old.addComment text).2 edits new) :
    Tends old edits new
  | edits {old middle new : Graph} {edits : List Edit} {edit : Edit} {answer : Option NodeId} (regular : edit.Regular old)
    (run : edit.apply old = .ok (answer, middle)) (later : Tends middle edits new) : Tends old (edit :: edits) new

def Tended (graph : Graph) : Prop := ∃ count start edits, withCapacity count = .ok start ∧ Tends start edits graph

-- What a history of edits keeps of the constants: an id never comes to stand for another value.
structure Outlives (edits : List Edit) (old new : Graph) : Prop where
  size : old.size ≤ new.size
  cached : new.Cached
  shown : ∀ id < old.size, new.shown? id = none ∨ new.shown? id = old.shown? id
  held : ∀ value id, old.constants.lookup value = some id → .kill id ∉ edits → new.constants.lookup value = some id
  missing : ∀ value, old.constants.lookup value = none → (∀ edit ∈ edits, edit.constant? ≠ some value) →
    new.constants.lookup value = none

theorem spares_outlives (cached : old.Cached) (spares : Spares old new) : Outlives [] old new where
  size := spares.size
  cached := spares_cached spares cached
  shown id inside := .inr (spares.shown id inside)
  held value _ found _ := (spares.table value).trans found
  missing value found _ := (spares.table value).trans found

theorem serves_outlives (serves : Serves edit old new) : Outlives [edit] old new where
  size := serves.size
  cached := serves.cached
  shown id inside := by
    rw [serves.shown id inside]
    split
    · exact .inl rfl
    · exact .inr rfl
  held value id found lives := by
    have lets : edit ≠ .kill id := fun same => lives (same ▸ mem_singleton_self _)
    rw [serves.table, found]
    split
    · rfl
    · exact Option.filter_some_pos (decide_eq_true lets)
  missing value found unasked := by
    rw [serves.table, if_neg (unasked edit (mem_singleton_self edit)), found, Option.filter_none]

theorem outlives_trans {first second : List Edit} (early : Outlives first old middle) (late : Outlives second middle new) :
    Outlives (first ++ second) old new where
  size := early.size.trans late.size
  cached := late.cached
  shown id inside := by
    have before := early.shown id inside
    rcases late.shown id (inside.trans_le early.size) with gone | same
    · exact .inl gone
    · rwa [same]
  held value id found lives := by
    rw [mem_append, not_or] at lives
    exact late.held value id (early.held value id found lives.1) lives.2
  missing value found unasked := by
    rw [forall_mem_append] at unasked
    exact late.missing value (early.missing value found unasked.1) unasked.2

theorem tends_outlives (tends : Tends old edits new) (cached : old.Cached) : Outlives edits old new := by
  induction tends with
  | rests graph => exact spares_outlives cached spares_refl
  | @comments old _ _ text _ ih =>
    have noted : Spares old (old.addComment text).2 := ⟨le_rfl, fun _ => rfl, fun _ _ => rfl⟩
    exact outlives_trans (spares_outlives cached noted) (ih (spares_cached noted cached))
  | edits regular run _ ih =>
    have serves := apply_serves cached regular run
    exact outlives_trans (serves_outlives serves) (ih serves.cached)

theorem tended_cached (tended : graph.Tended) : graph.Cached := by
  obtain ⟨count, start, edits, made, tends⟩ := tended
  obtain ⟨_, _, same⟩ := bind_eq_ok.mp made
  cases same
  have created : empty.Cached := ⟨by decide, rfl, by rintro _ _ ⟨⟩⟩
  exact (tends_outlives tends created).cached

-- A live constant keeps its id away from other values, also once it is gone.
theorem answer_apart {other : Constant} (cached : old.Cached) (tends : Tends old edits new)
    (shown : old.shown? id = some value) (different : other ≠ value) : (new.constants.lookup other).getD new.size ≠ id := by
  have outlives := tends_outlives tends cached
  have inside := shown_inside shown
  cases found : new.constants.lookup other with
  | none => exact Nat.ne_of_gt (inside.trans_le outlives.size)
  | some next =>
    rintro rfl
    have read := outlives.cached.shown other _ found
    rw [Option.getD_some] at shown inside
    rcases outlives.shown next inside with gone | same
    · rw [gone] at read
      cases read
    · rw [same, shown] at read
      exact different (Option.some.inj read).symm

theorem constants_canonical {graph : Graph} {call : Edit} {value : Constant} (tended : graph.Tended)
    (asks : call.constant? = some value) :
    ∃ id called, call.apply graph = .ok (some id, called) ∧ called.Denotes id value ∧
      ∀ edits later, called.Tends edits later →
        (∀ (again : Edit) (other : Constant), again.constant? = some other → ∃ next final, again.apply later = .ok (some next, final) ∧
          (other ≠ value → next ≠ id) ∧ (other = value → .kill id ∉ edits → next = id)) ∧
        ∀ killed rest last (again : Edit), .kill id ∉ edits → later.kill id = .ok killed → killed.Tends rest last →
          (∀ edit ∈ rest, edit.constant? ≠ some value) → again.constant? = some value →
          ∃ next final, again.apply last = .ok (some next, final) ∧ last.node? next = none := by
  have cached := tended_cached tended
  obtain ⟨called, run⟩ := asked_runs cached asks
  have made := apply_serves cached (by cases call <;> trivial) run
  have listed := made.table value
  rw [asks, if_pos rfl] at listed
  have shown := made.cached.shown value _ listed
  refine ⟨_, called, run, shown_iff.mp shown, fun edits later tends => ⟨fun again other asks => ?_, ?_⟩⟩
  · have outlives := tends_outlives tends made.cached
    obtain ⟨final, answer⟩ := asked_runs outlives.cached asks
    refine ⟨_, final, answer, answer_apart made.cached tends shown, ?_⟩
    rintro rfl lives
    rw [outlives.held _ _ listed lives, Option.getD_some]
  · intro killed rest last again lives gone tends' unasked asks
    have outlives := tends_outlives tends made.cached
    have missing := (kill_serves outlives.cached gone).table value
    rw [outlives.held _ _ listed lives, if_neg (by rintro ⟨⟩), Option.filter_some_neg (by simp)] at missing
    have after := tends_outlives tends' (kill_serves outlives.cached gone).cached
    obtain ⟨final, answer⟩ := asked_runs after.cached asks
    refine ⟨_, final, answer, ?_⟩
    rw [after.missing value missing unasked, Option.getD_none]
    exact Array.getElem?_eq_none (le_rfl)

theorem killed_constant_renewed : ∃ called killed next final again last,
    (Edit.int32Constant 5).apply empty = .ok (some 2, called) ∧ called.Denotes 2 (.int32 5) ∧
      (Edit.numberConstant (.ofInt32 5)).apply called = .ok (some next, final) ∧ next ≠ 2 ∧
      called.kill 2 = .ok killed ∧ (Edit.int32Constant 5).apply killed = .ok (some again, last) ∧ killed.node? again = none := by
  have tended : empty.Tended := ⟨0, empty, [], rfl, .rests empty⟩
  obtain ⟨id, called, run, denotes, calls⟩ := constants_canonical tended (show (Edit.int32Constant 5).constant? = _ from rfl)
  cases run
  obtain ⟨calls, renews⟩ := calls [] _ (.rests _)
  obtain ⟨next, final, answer, apart, _⟩ := calls (.numberConstant (.ofInt32 5)) _ rfl
  obtain ⟨again, last, anew, fresh⟩ := renews _ [] _ (.int32Constant 5) not_mem_nil rfl (.rests _) (by simp) rfl
  exact ⟨_, _, next, final, again, last, rfl, denotes, answer, apart (by simp), rfl, anew, fresh⟩

end Graph

end SeaOfNodes
