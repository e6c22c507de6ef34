import SeaOfNodes.Proofs.Graph.Reads
import SeaOfNodes.Proofs.Schedule.Cycles
import SeaOfNodes.Proofs.Schedule.Walks

/-! How a run of the scheduler can end, on every graph that passes verification. -/

namespace SeaOfNodes

open List SeaOfNodes.Graph

variable {id : NodeId} {block : BlockId}

section

variable {α β : Type} {graph : Graph} {stuck : Prop}

def Graph.Accounts (graph : Graph) (stuck : Prop) : Failure ScheduleError → Prop
  | .fault fault => fault = .endless ∧ stuck ∨ fault.Panic ∧ ¬ graph.Anchored
  | .rejected (.unexpectedControl id _) => graph.Strays id
  | .rejected (.cycle id) => ∃ cycle, graph.Cycle cycle ∧ id ∈ cycle
  | .rejected (.unplaced _) => True

def Accounted (graph : Graph) (stuck : Prop) (outcome : Scheduling α) : Prop :=
  ∀ failure, outcome = .error failure → graph.Accounts stuck failure

theorem accounted_ok (value : α) : Accounted graph stuck (.ok value) := by
  intro failure failed
  cases failed

theorem accounted_reject {error : ScheduleError} (cause : graph.Accounts stuck (.rejected error)) :
    Accounted graph stuck (Scheduling.reject error : Scheduling α) := by
  intro failure failed
  cases failed
  exact cause

theorem accounted_mono {more : Prop} {outcome : Scheduling α} (weaker : stuck → more) (accounted : Accounted graph stuck outcome) :
    Accounted graph more outcome := by
  intro failure failed
  have cause := accounted failure failed
  cases failure with
  | fault fault => exact cause.imp_left fun endless => ⟨endless.1, weaker endless.2⟩
  | rejected error =>
    cases error with
    | unexpectedControl id op => exact cause
    | cycle id => exact cause
    | unplaced id => trivial

theorem accounted_bind {first : Scheduling α} {next : α → Scheduling β} (begins : Accounted graph stuck first)
    (goes : ∀ value, first = .ok value → Accounted graph stuck (next value)) : Accounted graph stuck (first >>= next) := by
  intro failure failed
  rcases bind_eq_error.mp failed with here | ⟨value, done, later⟩
  · exact begins failure here
  · exact goes value done failure later

theorem accounted_read {outcome : Except Fault α} (yields : Yields outcome fun _ => True)
    (works : graph.Anchored → ∃ value, outcome = .ok value) : Accounted graph stuck (Scheduling.ofFaulty outcome) := by
  intro failure failed
  cases outcome with
  | ok value => cases failed
  | error other =>
    cases failed
    refine .inr ⟨yields, fun anchored => ?_⟩
    obtain ⟨_, impossible⟩ := works anchored
    cases impossible

theorem accounted_filter_m (items : List α) {test : α → Scheduling Bool} (tests : ∀ item ∈ items, Accounted graph stuck (test item)) :
    Accounted graph stuck (items.filterM test) := by
  have steps : ∀ before, Accounted graph stuck (items.filterAuxM test before) := by
    induction items with
    | nil => exact fun before => accounted_ok before
    | cons first rest ih =>
      intro before
      obtain ⟨here, later⟩ := forall_mem_cons.mp tests
      exact accounted_bind here fun chosen _ => ih later _
  exact accounted_bind (steps []) fun all _ => accounted_ok _

end

theorem schedulable_panics {graph : Graph} : Yields graph.schedulable fun _ => True := by
  rcases graph.schedulable_cases with ⟨ids, gathered, _⟩ | ⟨failed, _⟩
  · rw [gathered]
    trivial
  · rw [failed]
    exact .inr rfl

section

variable {α : Type} {stuck : Prop} {node : Node} {graph : Graph} (verified : graph.Verified) {ids : List NodeId}
  (distinct : ids.Nodup) (members : ∀ id, id ∈ ids ↔ graph.Needed id ∧ id ≠ stop) {placement : Placement}

def Graph.Lives (graph : Graph) (id : NodeId) : Prop := graph.Anchored → ∃ node, graph.Live id node

theorem accounted_op {next : Operator → Scheduling α} (lives : graph.Lives id)
    (goes : ∀ node, graph.node? id = some node → Accounted graph stuck (next node.op)) :
    Accounted graph stuck (Scheduling.ofFaulty (graph.op id) >>= next) := by
  refine accounted_bind (accounted_read (op_panics id) ?_) fun op fetched => ?_
  · intro anchored
    obtain ⟨node, live⟩ := lives anchored
    exact ⟨node.op, (graph.op_eq_ok id node.op).mpr ⟨node, live.1, rfl⟩⟩
  · rw [of_faulty_eq_ok, graph.op_eq_ok] at fetched
    obtain ⟨node, read, rfl⟩ := fetched
    exact goes node read

include verified in
theorem accounted_layout {next : InputLayout → Scheduling α} (read : graph.node? id = some node) (lives : graph.Lives id)
    (goes : Accounted graph stuck (next node.op.layout)) :
    Accounted graph stuck (Scheduling.ofFaulty node.op.checkedLayout >>= next) := by
  refine accounted_bind (accounted_read (yields_checked_layout fun _ => trivial) ?_) fun layout shaped => ?_
  · intro anchored
    obtain ⟨other, live⟩ := lives anchored
    cases read.symm.trans live.1
    exact ⟨_, (checked_layout_eq_ok _ _).mpr ⟨verified.fits id node live, rfl⟩⟩
  · rw [of_faulty_eq_ok, checked_layout_eq_ok] at shaped
    obtain ⟨_, rfl⟩ := shaped
    exact goes

include verified in
theorem input_lives {input : NodeId} (read : graph.node? id = some node) (lives : graph.Lives id) (edge : input ∈ node.inputs) :
    graph.Lives input := by
  intro anchored
  obtain ⟨other, live⟩ := lives anchored
  cases read.symm.trans live.1
  exact verified.inputs id node live input edge

variable (grounded : Grounded graph ids placement)

include grounded

include verified members in
theorem walk_accounted {origin current : NodeId} {steps : Nat} (passed : List NodeId)
    (needed : graph.Needed current) (lives : graph.Lives current) (arrives : graph.Arrives origin current) :
    Accounted graph (∀ count < steps, graph.Passes origin (graph.walked current count) (graph.walked current (count + 1)))
      (placement.walk graph origin steps current passed) := by
  induction steps generalizing current passed with
  | zero =>
    intro failure failed
    cases failed
    exact .inl ⟨rfl, fun _ impossible => absurd impossible (Nat.not_lt_zero _)⟩
  | succ steps ih =>
    rw [Placement.walk]
    cases placed : placement.find? current with
    | some block => exact accounted_ok _
    | none =>
      refine accounted_op lives fun node read => accounted_layout verified read lives ?_
      have inner : node.op.startsBlock → current = stop := by
        intro starts
        by_contra other
        rw [(unplaced_inner grounded.toAtHome ((members current).mpr ⟨needed, other⟩) read placed).2] at starts
        cases starts
      split
      · rename_i blocked
        simp only [Bool.or_eq_true, decide_eq_true_eq, Bool.and_eq_true] at blocked
        exact accounted_reject (arrives_strays arrives read inner blocked)
      rename_i onward
      simp only [Bool.or_eq_true, decide_eq_true_eq, Bool.and_eq_true, not_or, not_and] at onward
      have goes : ¬ graph.Halts origin current := by
        rintro ⟨other, again, start | ends | free⟩
        · cases read.symm.trans again
          exact start.2 (inner start.1)
        · cases read.symm.trans again
          exact onward.2 ends.1 ends.2
        · cases read.symm.trans again
          exact onward.1 free
      refine accounted_bind (accounted_read (control_input_panics current) ?_) fun previous taken => ?_
      · intro anchored
        obtain ⟨other, live⟩ := lives anchored
        obtain ⟨previous, _, step, _⟩ := verified_passes verified live goes
        exact ⟨previous, step.2⟩
      rw [of_faulty_eq_ok] at taken
      obtain ⟨other, again, first, edge⟩ := graph.control_input_head taken
      have input := edge
      rw [graph.inputs_of_eq current other again] at input
      refine accounted_mono ?_ (ih (current :: passed) (graph.needed_input current previous needed edge)
        (input_lives verified again lives input) (arrives_next needed arrives again (mem_of_mem_head? first)))
      intro further count bound
      cases count with
      | zero =>
        rw [walked_step taken 0]
        exact ⟨goes, taken⟩
      | succ count =>
        rw [walked_step taken, walked_step taken]
        exact further count (Nat.lt_of_succ_lt_succ bound)

include verified members in
theorem control_block_accounted (needed : graph.Needed id) (lives : graph.Lives id)
    (arrives : graph.Arrives id id) : Accounted graph graph.Stuck (placement.controlBlock graph id) := by
  refine accounted_bind (accounted_mono ?_ (walk_accounted verified members grounded [] needed lives arrives))
    fun found _ => accounted_ok _
  intro long
  exact ⟨id, needed, circles_of_long long⟩

include verified members in
omit grounded in
theorem member_lives {id : NodeId} (member : id ∈ ids) : graph.Needed id ∧ graph.Lives id := by
  obtain ⟨needed, other⟩ := (members id).mp member
  exact ⟨needed, fun anchored => (needed_live verified anchored needed).resolve_left other⟩

include verified distinct members in
theorem jumps_into_accounted {start : NodeId} (target : BlockId) {count : Nat} (index : Nat)
    (member : start ∈ ids) (late : ∀ node, graph.node? start = some node → node.op.layout.firstControl ≤ index)
    (enough : ∀ node, graph.Live start node → index + count ≤ node.inputs.length) :
    Accounted graph graph.Stuck (Flow.jumpsInto graph start target placement count index) := by
  obtain ⟨needed, lives⟩ := member_lives verified members member
  induction count generalizing placement index with
  | zero => exact accounted_ok _
  | succ count ih =>
    rw [Flow.jumpsInto]
    refine accounted_bind (accounted_read (input_panics start index) ?_) fun control taken => ?_
    · intro anchored
      obtain ⟨node, live⟩ := lives anchored
      have inside : index < node.inputs.length := by
        have := enough node live
        omega
      exact ⟨_, (graph.input_eq_ok _ _ _).mpr ⟨node, live.1, getElem?_eq_getElem inside⟩⟩
    rw [of_faulty_eq_ok, graph.input_eq_ok] at taken
    obtain ⟨node, read, edge⟩ := taken
    have input := mem_of_getElem? edge
    have reached := graph.needed_input start control needed (graph.inputs_of_eq start node read ▸ input)
    have lively := input_lives verified read lives input
    have arrives : graph.Taken control := ⟨start, node, needed, ((members start).mp member).2, read,
      mem_control_inputs.mpr ⟨index, late node read, edge⟩⟩
    refine accounted_bind (control_block_accounted verified members grounded reached lively (.inr (.inl arrives)))
      fun found run => ?_
    obtain ⟨source, middle⟩ := found
    obtain ⟨_, middleGrounded, _, _⟩ := control_block_grounded distinct grounded reached run
    refine accounted_op lively fun definition _ => ?_
    refine accounted_bind (ih middleGrounded (index + 1) (fun node read => Nat.le_succ_of_le (late node read))
      fun node live => ?_) fun _ _ => accounted_ok _
    have := enough node live
    omega

include verified distinct members in
theorem all_jumps_accounted {entries : List (NodeId × BlockId)}
    (starts : ∀ entry ∈ entries, entry.1 ∈ ids) : Accounted graph graph.Stuck (Flow.allJumps graph entries placement) := by
  induction entries generalizing placement with
  | nil => exact accounted_ok _
  | cons entry rest ih =>
    obtain ⟨start, target⟩ := entry
    obtain ⟨member, later⟩ := forall_mem_cons.mp starts
    obtain ⟨here, lives⟩ := member_lives verified members member
    rw [Flow.allJumps]
    refine accounted_bind (accounted_read (layout_panics start) ?_) fun layout shaped => ?_
    · intro anchored
      obtain ⟨node, live⟩ := lives anchored
      exact ⟨_, (graph.layout_eq_ok _ _).mpr ⟨node, live.1, verified.fits start node live, rfl⟩⟩
    rw [of_faulty_eq_ok, graph.layout_eq_ok] at shaped
    obtain ⟨node, read, _, rfl⟩ := shaped
    refine accounted_bind (jumps_into_accounted verified distinct members grounded target _ member ?_ ?_) fun found run => ?_
    · intro other again
      cases read.symm.trans again
      exact le_rfl
    · intro other live
      cases read.symm.trans live.1
      exact (verified.counted start node live).ge
    obtain ⟨own, middle⟩ := found
    obtain ⟨middleGrounded, _, _⟩ := jumps_into_grounded distinct grounded here run
    exact accounted_bind (ih middleGrounded later) fun _ _ => accounted_ok _

include verified distinct members in
theorem all_exits_accounted {terminators : List NodeId}
    (exits : ∀ id ∈ terminators, id ∈ graph.inputsOf stop ∧ graph.Lives id) :
    Accounted graph graph.Stuck (Flow.allExits graph terminators placement) := by
  induction terminators generalizing placement with
  | nil => exact accounted_ok _
  | cons terminator rest ih =>
    obtain ⟨⟨exit, lives⟩, later⟩ := forall_mem_cons.mp exits
    have here := graph.needed_input stop terminator (.inr .refl) exit
    rw [Flow.allExits]
    refine accounted_bind (control_block_accounted verified members grounded here lives
      (.inr (.inr ⟨rfl, .inl exit⟩))) fun found run => ?_
    obtain ⟨block, middle⟩ := found
    obtain ⟨_, middleGrounded, _, _⟩ := control_block_grounded distinct grounded here run
    exact accounted_bind (ih middleGrounded later) fun _ _ => accounted_ok _

include verified distinct members in
omit grounded in
theorem flow_accounted : Accounted graph graph.Stuck (Flow.ofGraph graph ids) := by
  have begun := start_grounded distinct fun id member => ((members id).mp member).1
  have starts : ∀ entry ∈ (graph.blockStarts ids).zipIdx, entry.1 ∈ ids := fun entry member =>
    (mem_filter.mp (mem_of_getElem? (mem_zipIdx_iff_getElem?.mp member))).1
  rw [Flow.ofGraph]
  refine accounted_bind (all_jumps_accounted verified distinct members begun starts) fun found run => ?_
  obtain ⟨jumps, middle⟩ := found
  obtain ⟨middleGrounded, _, _⟩ := all_jumps_grounded distinct begun
    (fun entry member => ((members entry.1).mp (starts entry member)).1) run
  refine accounted_bind (all_exits_accounted verified distinct members middleGrounded fun id input => ?_) fun _ _ => accounted_ok _
  refine ⟨input, fun anchored => ?_⟩
  obtain ⟨node, read, inputs⟩ := anchored.exit
  exact inputs id (graph.inputs_of_eq stop node read ▸ input)

include verified in
omit grounded in
theorem is_fixed_accounted (lives : graph.Lives id) : Accounted graph graph.Stuck (Schedule.isFixed graph id) :=
  accounted_op lives fun node read => accounted_layout verified read lives (accounted_ok _)

include verified members in
theorem place_fixed_accounted (member : id ∈ ids)
    (fixed : Schedule.isFixed graph id = .ok true) : Accounted graph graph.Stuck (Schedule.placeFixed graph placement id) := by
  obtain ⟨needed, lives⟩ := member_lives verified members member
  simp only [Schedule.isFixed, bind_eq_ok, of_faulty_eq_ok, pure_eq_ok, graph.op_eq_ok, checked_layout_eq_ok] at fixed
  obtain ⟨_, ⟨node, read, rfl⟩, _, ⟨_, rfl⟩, shape⟩ := fixed
  rw [Bool.and_eq_true, decide_eq_true_eq] at shape
  have operator : graph.op id = .ok node.op := (graph.op_eq_ok id node.op).mpr ⟨node, read, rfl⟩
  rw [Schedule.placeFixed, operator]
  refine accounted_bind (accounted_ok node.op) fun op same => ?_
  cases same
  dsimp only
  by_cases control : node.op.isControl
  · rw [if_pos control, pure_bind]
    have arrives : graph.Arrives id id := .inr (.inr ⟨rfl, .inr ⟨((members id).mp member).2, fun other again =>
      Option.some.inj (read.symm.trans again) ▸ shape.1⟩⟩)
    exact accounted_bind (control_block_accounted verified members grounded needed lives arrives) fun _ _ => accounted_ok _
  · rw [if_neg control]
    refine accounted_bind (accounted_read (control_input_panics id) ?_) fun origin taken => ?_
    · intro anchored
      obtain ⟨other, live⟩ := lives anchored
      cases read.symm.trans live.1
      obtain ⟨previous, _, taken, _⟩ := verified_control verified live shape.1
      exact ⟨previous, taken⟩
    rw [of_faulty_eq_ok] at taken
    obtain ⟨other, again, first, edge⟩ := graph.control_input_head taken
    have input := edge
    rw [graph.inputs_of_eq id other again] at input
    have arrives : graph.Taken origin :=
      ⟨id, other, needed, ((members id).mp member).2, again, mem_of_mem_head? first⟩
    exact accounted_bind (control_block_accounted verified members grounded (graph.needed_input id origin needed edge)
      (input_lives verified again lives input) (.inr (.inl arrives))) fun _ _ => accounted_ok _

include verified distinct members in
theorem place_all_fixed_accounted (pinned : List NodeId)
    (fixed : ∀ id ∈ pinned, id ∈ ids ∧ Schedule.isFixed graph id = .ok true) :
    Accounted graph graph.Stuck (pinned.foldlM (Schedule.placeFixed graph) placement) := by
  induction pinned generalizing placement with
  | nil => exact accounted_ok _
  | cons first rest ih =>
    obtain ⟨⟨member, own⟩, later⟩ := forall_mem_cons.mp fixed
    rw [foldlM_cons]
    refine accounted_bind (place_fixed_accounted verified members grounded member own) fun middle run => ?_
    exact ih (place_fixed_grounded distinct grounded ((members first).mp member).1 own run).1 later

end

-- Beyond the walks nothing can fail but by a refusal.
namespace Schedule

variable {unvisited : List NodeId} {stack : List (NodeId × List NodeId)} {graph : Graph} {stuck : Prop} {base : Placement}
  (blocks : Array Block) (entry : BlockId) (placement : Placement)

theorem deepest_block_accounted {inputs : List NodeId} :
    Accounted graph stuck (deepestBlock graph blocks placement inputs block) := by
  fun_induction deepestBlock graph blocks placement inputs block with
  | case1 block => exact accounted_ok block
  | case2 => exact accounted_reject trivial
  | case3 _ _ _ _ _ _ ih => exact ih

theorem settle_accounted (moored : Moored graph base) (adrift : Adrift graph base unvisited placement stack) :
    Accounted graph stuck (settle graph blocks entry unvisited placement stack) ∧
      ∀ left after, settle graph blocks entry unvisited placement stack = .ok (left, after) → Adrift graph base left after [] := by
  fun_induction settle graph blocks entry unvisited placement stack with
  | case1 unvisited placement =>
    refine ⟨accounted_ok _, fun left after same => ?_⟩
    cases same
    exact adrift
  | case2 unvisited placement id rest ih =>
    have later := fun block => ih block (adrift_leave moored block adrift)
    refine ⟨accounted_bind (deepest_block_accounted blocks placement) fun block _ => (later block).1,
      fun left after run => ?_⟩
    obtain ⟨block, _, further⟩ := bind_eq_ok.mp run
    exact (later block).2 left after further
  | case3 unvisited placement id input more rest placed ih =>
    exact ih (adrift_drop adrift)
  | case4 unvisited placement id input more rest bare member ih =>
    exact ih (adrift_enter moored (by simpa using bare) member adrift)
  | case5 unvisited placement id input more rest bare absent =>
    refine ⟨accounted_reject ?_, fun left after impossible => by cases impossible⟩
    have requires := adrift_requires moored (by simpa using bare) adrift
    have needed := graph.needed_input id input (adrift.waiting _ mem_cons_self).1 (graph.requires_input requires)
    have stacked := ((adrift.covered input needed).resolve_left absent).resolve_left bare
    exact graph.stack_cycle adrift.chained requires stacked

theorem place_floating_accounted (moored : Moored graph base) (pending : List NodeId) (known : ∀ id ∈ pending, graph.Needed id)
    (adrift : Adrift graph base unvisited placement []) :
    Accounted graph stuck (placeFloating graph blocks entry pending unvisited placement) := by
  induction pending generalizing unvisited placement with
  | nil => exact accounted_ok placement
  | cons id rest ih =>
    obtain ⟨here, later⟩ := forall_mem_cons.mp known
    rw [placeFloating]
    split
    · exact ih placement later adrift
    · rename_i bare
      obtain ⟨accounted, settled⟩ := settle_accounted blocks entry placement moored
        (adrift_begin here (by simpa using bare) adrift)
      exact accounted_bind accounted fun found run => ih found.2 later (settled found.1 found.2 run)

theorem emit_accounted (block : BlockId) {emitted : List NodeId}
    (waiting : ∀ entry ∈ stack, ∀ input ∈ entry.2, input ∈ orderingInputs graph entry.1)
    (chained : (stack.map Prod.fst).IsChain fun upper lower => graph.Requires lower upper) :
    Accounted graph stuck (emit graph placement block unvisited stack emitted) := by
  fun_induction emit graph placement block unvisited stack emitted with
  | case1 unvisited emitted =>
    exact accounted_ok _
  | case2 unvisited emitted id rest ih =>
    exact ih (fun entry member => waiting entry (mem_cons_of_mem _ member)) chained.tail
  | case3 unvisited emitted id input more rest elsewhere ih =>
    exact ih (waiting_drop waiting) chained
  | case4 unvisited emitted id input more rest here member ih =>
    have ordered := waiting (id, input :: more) mem_cons_self input mem_cons_self
    exact ih (forall_mem_cons.mpr ⟨fun _ own => own, waiting_drop waiting⟩)
      (isChain_cons_cons.mpr ⟨graph.mem_ordering_inputs.mp ordered, chained⟩)
  | case5 unvisited emitted id input more rest here absent cyclic =>
    have ordered := waiting (id, input :: more) mem_cons_self input mem_cons_self
    obtain ⟨entry, member, same⟩ := any_eq_true.mp cyclic
    have stacked : input ∈ ((id, more) :: rest).map Prod.fst := of_decide_eq_true same ▸ mem_map_of_mem member
    exact accounted_reject (graph.stack_cycle chained (graph.mem_ordering_inputs.mp ordered) stacked)
  | case6 unvisited emitted id input more rest here absent acyclic ih =>
    exact ih (waiting_drop waiting) chained

theorem emit_all_accounted {pending : List NodeId} (unvisited emitted : List NodeId) :
    Accounted graph stuck (emitAll graph placement block pending unvisited emitted) := by
  induction pending generalizing unvisited emitted with
  | nil => exact accounted_ok _
  | cons id rest ih =>
    rw [emitAll]
    split
    · refine accounted_bind (emit_accounted placement block ?_ (.singleton id)) fun left _ => ih left.1 left.2
      exact forall_mem_singleton.mpr fun _ own => own
    · exact ih unvisited emitted

theorem order_blocks_accounted (ids unvisited : List NodeId) {entries : List (Block × BlockId)} :
    Accounted graph stuck (orderBlocks graph placement ids entries unvisited) := by
  induction entries generalizing unvisited with
  | nil => exact accounted_ok _
  | cons entry rest ih =>
    rw [orderBlocks, orderBlock]
    refine accounted_bind (accounted_bind (emit_all_accounted placement _ _) fun _ _ =>
      accounted_bind (emit_all_accounted placement _ _) fun _ _ => accounted_ok _) fun left _ => ?_
    exact accounted_bind (ih left.1) fun _ _ => accounted_ok _

theorem of_graph_accounted (verified : graph.Verified) : Accounted graph graph.Stuck (ofGraph graph) := by
  rw [ofGraph]
  refine accounted_bind (accounted_read schedulable_panics ?_) fun ids gathered => ?_
  · intro anchored
    obtain ⟨ids, gathered, _⟩ := graph.schedulable_ends (by
      intro id needed
      rcases needed_live verified anchored needed with last | ⟨node, live⟩
      · obtain ⟨node, read, _⟩ := anchored.exit
        exact last ▸ graph.node_lt read
      · exact graph.node_lt live.1)
    exact ⟨ids, gathered⟩
  rw [of_faulty_eq_ok] at gathered
  obtain ⟨distinct, members, bounded⟩ := graph.schedulable_exact gathered
  refine accounted_bind (flow_accounted verified distinct members) fun found flowed => ?_
  obtain ⟨flow, initial⟩ := found
  obtain ⟨starts, grounded, _⟩ := flow_of_graph_grounded distinct (fun id member => ((members id).mp member).1) flowed
  refine accounted_bind (accounted_read (yields_present fun _ _ => trivial) ?_) fun entry _ => ?_
  · intro anchored
    obtain ⟨node, live, begins⟩ := anchored.entry
    have listed : start ∈ graph.blockStarts ids :=
      (mem_block_starts live.1).mpr ⟨(members _).mpr ⟨.inl .refl, by decide⟩, begins⟩
    obtain ⟨entry, entered⟩ := Option.isSome_iff_exists.mp (isSome_idxOf?.mpr listed)
    exact ⟨entry, by rw [starts, idxOf?_toArray, entered]; rfl⟩
  obtain ⟨rounds, built, _⟩ := DominatorTree.build_ends (flow.order_ordered entry)
  refine accounted_bind (accounted_read (by rw [built]; trivial) fun _ => ⟨_, built⟩) fun dominators _ => ?_
  refine accounted_bind (accounted_filter_m ids fun id member =>
    is_fixed_accounted verified (member_lives verified members member).2) fun pinned filtered => ?_
  refine accounted_bind (place_all_fixed_accounted verified distinct members grounded pinned fun id member =>
    (mem_filter_m filtered id).mp member) fun fixed folded => ?_
  have moored := grounded_moored gathered flowed filtered folded
  have begun : Adrift graph fixed (range graph.size) fixed [] :=
    ⟨⟨nodup_range, nodup_nil, by simp, by simp⟩, moored.sized, fun _ _ same => same,
      fun id needed => .inl (mem_range.mpr (bounded id needed)), .nil⟩
  refine accounted_bind (place_floating_accounted _ entry fixed moored ids (fun id member => ((members id).mp member).1) begun)
    fun final _ => ?_
  split
  · exact accounted_reject trivial
  · exact accounted_bind (order_blocks_accounted final ids _) fun _ _ => accounted_ok _

end Schedule

section

variable {graph : Graph} {origin : NodeId}

-- A home is at the end of a walk, and the walk to it is the only one.
theorem home_straight {starts : List NodeId} (halt : ∀ start ∈ starts, graph.Halts origin start)
    (home : Home graph starts id block) : ¬ graph.Roams origin id := by
  induction home with
  | start id block place =>
    intro roams
    obtain ⟨_, step, _⟩ := roams_step roams
    exact step.1 (halt id (mem_of_getElem? place))
  | pass id previous node block _ read first _ ih =>
    intro roams
    obtain ⟨next, step, further⟩ := roams_step roams
    obtain ⟨again, reread, head, _⟩ := graph.control_input_head step.2
    cases read.symm.trans reread
    cases first.symm.trans head
    exact ih further

theorem control_at_home {schedule : Schedule} {ids : List NodeId} {flow : Flow} {initial fixed : Placement}
    (stages : Schedule.Stages graph schedule ids flow initial fixed) {first : NodeId} (needed : graph.Needed id)
    (taken : graph.controlInput id = .ok first) : ∃ block, Home graph (graph.blockStarts ids) first block := by
  obtain ⟨_, grounded, _, enters, exits⟩ := flow_of_graph_grounded stages.ids_nodup stages.ids_needed stages.flowed
  obtain ⟨settled, _, placed⟩ := stages.fixed_grounded
  obtain ⟨node, read, head, edge⟩ := graph.control_input_head taken
  by_cases last : id = stop
  · subst last
    obtain ⟨block, found⟩ := exits first edge
    exact ⟨block, grounded.homes first block found⟩
  have member := (stages.mem_ids id).mpr ⟨needed, last⟩
  by_cases begins : node.op.startsBlock
  · obtain ⟨target, place⟩ := getElem?_of_mem ((mem_block_starts read).mpr ⟨member, begins⟩)
    obtain ⟨source, found, _⟩ := enters id first target place taken
    exact ⟨source, grounded.homes first source found⟩
  have own : Schedule.isFixed graph id = .ok true := by
    simp only [controlInput, bind_eq_ok, graph.layout_eq_ok, require_eq_ok, decide_eq_true_eq] at taken
    obtain ⟨_, ⟨again, reread, fits, rfl⟩, _, takes, _⟩ := taken
    cases read.symm.trans reread
    simp only [Schedule.isFixed, bind_eq_ok, of_faulty_eq_ok, pure_eq_ok, graph.op_eq_ok, checked_layout_eq_ok]
    exact ⟨_, ⟨node, read, rfl⟩, _, ⟨fits, rfl⟩, by simp [takes, begins]⟩
  obtain ⟨block, found⟩ := placed id member own
  cases settled.homes id block found with
  | start _ _ place =>
    have listed := (mem_block_starts read).mp (mem_of_getElem? place)
    exact absurd listed.2 begins
  | pass _ previous again _ _ reread second rest =>
    cases read.symm.trans reread
    cases head.symm.trans second
    exact ⟨block, rest⟩

theorem accepted_straight (schedule : Schedule) (accepted : Schedule.ofGraph graph = .ok schedule) (id : NodeId)
    (needed : graph.Needed id) : ¬ graph.Circles id := by
  rintro ⟨first, taken, roams⟩
  obtain ⟨ids, flow, initial, fixed, stages⟩ := Schedule.of_graph_stages accepted
  obtain ⟨block, home⟩ := control_at_home stages needed taken
  refine home_straight ?_ home roams
  intro start listed
  obtain ⟨member, begins⟩ := mem_filter.mp listed
  obtain ⟨node, read, starts⟩ := (Option.any_eq_true _ _).mp begins
  exact ⟨node, read, .inl ⟨starts, ((stages.mem_ids start).mp member).2⟩⟩

end

theorem control_walks_settle_or_circle (graph : Graph) (verified : graph.verify = .ok ()) :
    (∀ id node, graph.Live id node → 0 < node.op.layout.controls → (graph.Settles id ↔ ¬ graph.Circles id)) ∧
      (∀ schedule, Schedule.ofGraph graph = .ok schedule → ¬ graph.Stuck) ∧
      ∀ fault, Schedule.ofGraph graph = .error (.fault fault) →
        fault = .endless ∧ graph.Stuck ∨ fault.Panic ∧ ¬ graph.Anchored := by
  rw [verify_eq_ok] at verified
  refine ⟨fun id node live takes => settles_iff verified id node live takes, ?_,
    fun fault => Schedule.of_graph_accounted verified (.fault fault)⟩
  rintro schedule accepted ⟨id, needed, circles⟩
  exact accepted_straight schedule accepted id needed circles

theorem branching_loop_settles : Graph.branchingLoop.verify = .ok () ∧ (∃ schedule, Schedule.ofGraph .branchingLoop = .ok schedule) ∧
    ¬ Graph.branchingLoop.Stuck ∧ Graph.branchingLoop.Settles 4 := by
  have verified : branchingLoop.verify = .ok () := ok_of_to_option _ () (by decide)
  obtain ⟨decided, accepted, _⟩ := control_walks_settle_or_circle .branchingLoop verified
  obtain ⟨schedule, run, _⟩ := scheduled_check .branchingLoop (fun _ => true) (by cbv)
  have straight := accepted schedule run
  have last : branchingLoop.Needed 7 := needed_input _ stop 7 (.inr .refl) (by decide)
  have needed := needed_input _ 6 4 (needed_input _ 7 6 last (by decide)) (by decide)
  exact ⟨verified, ⟨schedule, run⟩, straight,
    (decided 4 { op := .control .branch, inputs := [2, 3] } ⟨rfl, rfl⟩ (by decide)).mpr fun circles => straight ⟨4, needed, circles⟩⟩

def Graph.lockedBranch : Graph :=
  { Graph.empty with
    nodes := ⟨#[
      { op := .control .start, inputs := [] },
      { op := .control (.stop 1), inputs := [4] },
      { op := .parameter 0, inputs := [0] },
      { op := .control .branch, inputs := [2, 3] },
      { op := .control (.ret 1), inputs := [2, 2, 0, 3] }]⟩ }

theorem locked_branch_endless : Graph.lockedBranch.verify = .ok () ∧ Graph.lockedBranch.controlInput 3 = .ok 3 ∧
    ¬ Graph.lockedBranch.Settles 3 ∧ Schedule.ofGraph .lockedBranch = .error (.fault .endless) := by
  have circles : lockedBranch.Circles 3 := by
    have step : lockedBranch.Passes 3 3 3 := by
      refine ⟨?_, by decide⟩
      rintro ⟨node, read, halts⟩
      cases read
      revert halts
      decide
    exact ⟨3, by decide, 3, .refl, .single step⟩
  exact ⟨ok_of_to_option _ () (by decide), by decide, fun settles => settles_not_circles settles circles, by cbv⟩

end SeaOfNodes
