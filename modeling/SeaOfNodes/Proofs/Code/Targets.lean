import SeaOfNodes.Code.Compile
import SeaOfNodes.Proofs.Runs
import SeaOfNodes.Proofs.Schedule.Listed

/-! Where the lines of a listing lead. -/

namespace SeaOfNodes

open List

variable {count total limit : Nat} {name : String} {descriptor : CallDescriptor} {listing : Listing} {s t : Workspace}

namespace Line

def targets : Line → List Target
  | branch _ yes no => yes.toList ++ no.toList
  | switch _ cases => cases.map Prod.snd
  | goto target => [target]
  | proceed success exception => [success, exception]
  | _ => []

def leaves : Line → Bool
  | ret _ | throw => true
  | operation _ op _ => op.isTerminator
  | _ => false

end Line

def ListingBlock.last? (block : ListingBlock) : Option Line := (block.lines.filter Line.isInstruction).getLast?

namespace Listing

variable {id way last : NodeId} {ways : NodeId × NodeId} {node : Node} {found : Option Line} {op : Operator} {line : Line}
  {block : Block}

def exits (graph : Graph) (id : NodeId) : List NodeId :=
  match (graph.node? id).map Node.op with
  | some (.control .branch) => (projection? graph id .ifTrue).toList ++ (projection? graph id .ifFalse).toList
  | some (.control (.switch _)) => (cases graph id).map Prod.snd
  | _ => (callExits? graph id).elim [] fun ways => [ways.1, ways.2]

theorem projection_starts {graph : Graph} {projection : ControlOp} (found : projection? graph id projection = some way)
    (starts : (Operator.control projection).startsBlock) :
    ∃ node, graph.node? way = some node ∧ node.op.startsBlock := by
  rw [projection?] at found
  have chosen := find?_some found
  obtain ⟨node, read, same⟩ := (Option.any_eq_true _ _).mp chosen
  exact ⟨node, read, of_decide_eq_true same ▸ starts⟩

theorem case_starts {graph : Graph} (member : way ∈ (cases graph id).map Prod.snd) :
    ∃ node, graph.node? way = some node ∧ node.op.startsBlock := by
  obtain ⟨entry, inside, rfl⟩ := mem_map.mp member
  rw [cases] at inside
  obtain ⟨user, _, found⟩ := mem_filterMap.mp (mem_mergeSort.mp inside)
  obtain ⟨value, chosen, rfl⟩ := Option.map_eq_some_iff.mp found
  obtain ⟨node, read, shown⟩ := Option.bind_eq_some_iff.mp chosen
  refine ⟨node, read, ?_⟩
  cases op : node.op with
  | control kind =>
    cases kind with
    | ifValue value => rfl
    | ifDefault => rfl
    | _ =>
      rw [op] at shown
      cases shown
  | _ =>
    rw [op] at shown
    cases shown

theorem call_exits_projections {graph : Graph} (both : callExits? graph id = some ways) :
    projection? graph id .ifSuccess = some ways.1 ∧ projection? graph id .ifException = some ways.2 := by
  rw [callExits?] at both
  split at both
  · simp only [Option.bind_eq_bind, Option.bind_eq_some_iff, Option.pure_def, Option.some.injEq] at both
    obtain ⟨success, first, exception, second, rfl⟩ := both
    exact ⟨first, second⟩
  · cases both

theorem exits_joined {graph : Graph} (read : graph.node? id = some node) (joined : splits node.op = false) :
    exits graph id = (callExits? graph id).elim [] fun ways => [ways.1, ways.2] := by
  rw [exits, read, Option.map_some]
  cases op : node.op with
  | control kind =>
    cases kind with
    | branch | switch count =>
      rw [op] at joined
      cases joined
    | _ => rfl
  | _ => rfl

theorem terminator_no_exits {graph : Graph} (read : graph.node? id = some node) (ends : node.op.isTerminator) :
    callExits? graph id = none := by
  rw [callExits?, read, Option.map_some]
  cases op : node.op with
  | call shape =>
    rw [op] at ends
    cases ends
  | _ => rfl

theorem call_exits {graph : Graph} (both : callExits? graph id = some ways) : exits graph id = [ways.1, ways.2] := by
  cases read : graph.node? id with
  | none =>
    rw [callExits?, read] at both
    cases both
  | some node =>
    have joined : splits node.op = false := by
      rw [callExits?, read, Option.map_some] at both
      cases op : node.op with
      | control kind =>
        rw [op] at both
        cases both
      | _ => rfl
    rw [exits_joined read joined, both, Option.elim_some]

theorem exit_starts {graph : Graph} (member : way ∈ exits graph id) :
    ∃ node, graph.node? way = some node ∧ node.op.startsBlock := by
  rw [exits] at member
  split at member
  · rcases mem_append.mp member with yes | no
    · exact projection_starts (Option.mem_toList.mp yes) rfl
    · exact projection_starts (Option.mem_toList.mp no) rfl
  · exact case_starts member
  · cases both : callExits? graph id with
    | none => simp [both] at member
    | some ways =>
      obtain ⟨success, exception⟩ := call_exits_projections both
      simp only [both, Option.elim_some, mem_cons, not_mem_nil, or_false] at member
      rcases member with rfl | rfl
      · exact projection_starts success rfl
      · exact projection_starts exception rfl

theorem with_operands_line {graph : Graph} {line : List NodeId → Line}
    (run : ((operands graph id).mapError Failure.fault).map (fun operands => some (line operands)) =
      (.ok found : Except (Failure ListingError) (Option Line))) : ∃ operands, found = some (line operands) := by
  cases read : operands graph id with
  | error fault =>
    rw [read] at run
    cases run
  | ok values =>
    rw [read] at run
    cases run
    exact ⟨values, rfl⟩

-- What the line of a node has to do with the ways out of it.
structure Shows (graph : Graph) (schedule : Schedule) (id : NodeId) (op : Operator) (found : Option Line) : Prop where
  targets : ∀ line, found = some line → ∀ target ∈ line.targets, target ∈ (exits graph id).map (Listing.target schedule)
  splits : splits op = true → ∃ line, found = some line ∧ line.isInstruction = true ∧
    line.targets = (exits graph id).map (target schedule)
  leaves : op.isTerminator = true → ∃ line, found = some line ∧ line.isInstruction = true ∧ line.leaves = true

theorem shows_quiet (graph : Graph) (schedule : Schedule) (id : NodeId) (silent : ∀ line, found = some line → line.targets = [])
    (plain : Listing.splits op = false) (onward : op.isTerminator = false) : Shows graph schedule id op found := by
  refine ⟨?_, ?_, ?_⟩
  · intro line shown target member
    rw [silent line shown] at member
    cases member
  · intro splits
    rw [plain] at splits
    cases splits
  · intro ends
    rw [onward] at ends
    cases ends

theorem shows_split {graph : Graph} {schedule : Schedule} {id : NodeId} (instruction : line.isInstruction)
    (named : line.targets = (exits graph id).map (target schedule)) (onward : op.isTerminator = false) :
    Shows graph schedule id op (some line) := by
  refine ⟨?_, fun _ => ⟨line, rfl, instruction, named⟩, ?_⟩
  · rintro _ ⟨⟩ target member
    exact named ▸ member
  · intro ends
    rw [onward] at ends
    cases ends

theorem shows_leaving (graph : Graph) (schedule : Schedule) (id : NodeId) (instruction : line.isInstruction)
    (silent : line.targets = []) (plain : Listing.splits op = false) (leaving : op.isTerminator → line.leaves) :
    Shows graph schedule id op (some line) := by
  refine ⟨?_, ?_, fun ends => ⟨line, rfl, instruction, leaving ends⟩⟩
  · rintro _ ⟨⟩ target member
    rw [silent] at member
    cases member
  · intro splits
    rw [plain] at splits
    cases splits

theorem node_line_shows {graph : Graph} {schedule : Schedule} (run : nodeLine graph schedule id = .ok found) :
    ∃ node, graph.node? id = some node ∧ Shows graph schedule id node.op found := by
  rw [nodeLine, bind_eq_ok] at run
  obtain ⟨_, fetched, rest⟩ := run
  obtain ⟨node, read, rfl⟩ := (graph.op_eq_ok _ _).mp ((map_error_eq_ok _ _ _).mp fetched)
  clear fetched
  refine ⟨node, read, ?_⟩
  cases op : node.op with
  | create request =>
    rw [op] at rest
    cases rest
  | effectPhi count | beginRegion =>
    rw [op] at rest
    cases rest
    exact shows_quiet graph schedule id (by rintro _ ⟨⟩) rfl rfl
  | comment text =>
    rw [op] at rest
    cases rest
    exact shows_quiet graph schedule id (by rintro _ ⟨⟩; rfl) rfl rfl
  | control kind =>
    cases kind with
    | branch =>
      rw [op] at rest
      obtain ⟨operands, rfl⟩ := with_operands_line rest
      refine shows_split rfl ?_ rfl
      simp [branchLine, Line.targets, exits, read, op, Option.toList_map]
    | switch count =>
      rw [op] at rest
      obtain ⟨operands, rfl⟩ := with_operands_line rest
      refine shows_split rfl ?_ rfl
      simp [switchLine, Line.targets, exits, read, op]
    | ret count =>
      rw [op] at rest
      obtain ⟨operands, rfl⟩ := with_operands_line rest
      exact shows_leaving graph schedule id rfl rfl rfl fun _ => rfl
    | throw =>
      rw [op] at rest
      cases rest
      exact shows_leaving graph schedule id rfl rfl rfl fun _ => rfl
    | ifException =>
      rw [op] at rest
      cases rest
      exact shows_quiet graph schedule id (by rintro _ ⟨⟩; rfl) rfl rfl
    | _ =>
      rw [op] at rest
      cases rest
      exact shows_quiet graph schedule id (by rintro _ ⟨⟩) rfl rfl
  | _ =>
    rw [op] at rest
    obtain ⟨operands, rfl⟩ := with_operands_line rest
    exact shows_leaving graph schedule id rfl rfl rfl fun ends => ends

theorem ends_explicitly {graph : Graph} (ended : block.terminator = some last) (read : graph.node? last = some node) :
    endsExplicitly graph block = (node.op.isTerminator || splits node.op) := by
  rw [endsExplicitly, ended, Option.bind_some, read, Option.any_some]

theorem fallthrough_call {graph : Graph} (schedule : Schedule) (ended : block.terminator = some last)
    (both : callExits? graph last = some ways) :
    ∃ line, fallthrough graph schedule block = [line] ∧ line.isInstruction ∧
      line.targets = (exits graph last).map (target schedule) := by
  refine ⟨.proceed (target schedule ways.1) (target schedule ways.2), ?_, rfl, ?_⟩
  · rw [fallthrough, ended, Option.bind_some, both]
  · rw [call_exits both]
    rfl

theorem fallthrough_instructions {graph : Graph} {schedule : Schedule} {line : Line}
    (member : line ∈ fallthrough graph schedule block) : line.isInstruction := by
  unfold fallthrough at member
  split at member
  · cases mem_singleton.mp member
    rfl
  · cases mem_singleton.mp member
    rfl
  · cases member

theorem push_all (flags : CodeFlags) (lines : List Line) (written : Written) : lines.foldl (Written.push flags) written =
      ⟨written.lines ++ lines.filter fun line => flags.comments || line.isInstruction,
        written.instructions + lines.countP Line.isInstruction⟩ := by
  induction lines generalizing written with
  | nil => simp
  | cons line rest ih =>
    rw [foldl_cons, ih, Written.push]
    cases shown : line.isInstruction <;> cases flags.comments <;> simp [shown, Nat.add_right_comm, Nat.add_assoc]

def Prints (graph : Graph) (schedule : Schedule) (flags : CodeFlags) (block : Block) (listed : ListingBlock) : Prop :=
  listed.label = block.label ∧ ∃ founds, block.nodes.mapM (nodeLine graph schedule) = .ok founds ∧
    listed.lines = (founds.reduceOption.filter fun line => flags.comments || line.isInstruction) ++
      if endsExplicitly graph block then [] else fallthrough graph schedule block

theorem of_block_prints {graph : Graph} {schedule : Schedule} {flags : CodeFlags} {listed : ListingBlock}
    (run : ofBlock graph schedule flags block count = .ok (listed, total)) : Prints graph schedule flags block listed := by
  rw [ofBlock, bind_eq_ok] at run
  obtain ⟨founds, shown, same⟩ := run
  cases same
  refine ⟨rfl, founds, shown, ?_⟩
  rw [push_all, nil_append, filter_append]
  refine congrArg (List.append _) ?_
  split
  · rfl
  · refine filter_eq_self.mpr fun line member => ?_
    rw [fallthrough_instructions member, Bool.or_true]

section

variable {graph : Graph} {schedule : Schedule} {flags : CodeFlags} {block : Block} {listed : ListingBlock}
  (run : Prints graph schedule flags block listed)

include run

theorem line_source (member : line ∈ listed.lines) :
    (∃ id ∈ block.nodes, nodeLine graph schedule id = .ok (some line)) ∨ line ∈ fallthrough graph schedule block := by
  obtain ⟨_, founds, shown, lines⟩ := run
  rw [lines, mem_append] at member
  rcases member with own | jump
  · have found := reduceOption_mem_iff.mp (mem_filter.mp own).1
    exact .inl (map_m_mem shown found)
  · split at jump
    · cases jump
    · exact .inr jump

theorem last_jump {jump : Line} (implicit : endsExplicitly graph block = false)
    (only : fallthrough graph schedule block = [jump]) (instruction : jump.isInstruction) : listed.last? = some jump := by
  obtain ⟨_, founds, _, lines⟩ := run
  rw [ListingBlock.last?, lines, implicit, if_neg Bool.false_ne_true, only, filter_append]
  simp [instruction]

theorem last_node (explicit : endsExplicitly graph block) (final : block.nodes.getLast? = some id) :
    ∃ found, nodeLine graph schedule id = .ok found ∧
      ∀ line, found = some line → line.isInstruction → listed.last? = some line := by
  obtain ⟨_, founds, shown, lines⟩ := run
  obtain ⟨front, nodes⟩ := getLast?_eq_some_iff.mp final
  rw [nodes, mapM_append, mapM_cons, mapM_nil] at shown
  simp only [bind_eq_ok, pure_eq_ok] at shown
  obtain ⟨before, _, _, ⟨found, here, _, rfl, rfl⟩, rfl⟩ := shown
  refine ⟨found, here, fun line same instruction => ?_⟩
  rw [ListingBlock.last?, lines, explicit, if_pos rfl, same]
  simp [reduceOption_append, instruction]

theorem last_leaves (last : NodeId) (node : Node)
    (ended : block.terminator = some last) (found : graph.node? last = some node) (ends : node.op.isTerminator)
    (final : block.nodes.getLast? = some last) : ∃ line, listed.last? = some line ∧ line.leaves := by
  have explicit := ends_explicitly ended found
  rw [ends, Bool.true_or] at explicit
  obtain ⟨shown, own, only⟩ := last_node run explicit final
  obtain ⟨_, again, shows⟩ := node_line_shows own
  rw [found] at again
  cases again
  obtain ⟨line, rfl, instruction, leaving⟩ := shows.leaves ends
  exact ⟨line, only line rfl instruction, leaving⟩

end

theorem of_blocks_each {graph : Graph} {schedule : Schedule} {flags : CodeFlags}
    {blocks : List Block} {listed : List ListingBlock}
    (run : ofBlocks graph schedule flags name limit blocks count = .ok (listed, total)) :
    Forall₂ (Prints graph schedule flags) blocks listed := by
  induction blocks generalizing count listed with
  | nil =>
    cases run
    exact .nil
  | cons block rest ih =>
    simp only [ofBlocks, bind_eq_ok] at run
    obtain ⟨⟨first, next⟩, here, later⟩ := run
    split at later
    · cases later
    · obtain ⟨⟨further, all⟩, more, same⟩ := bind_eq_ok.mp later
      cases same
      exact .cons (of_block_prints here) (ih more)

def Shown (graph : Graph) (block : Block) (next : BlockId) (start : NodeId) : Prop :=
  (∃ last, block.terminator = some last ∧ start ∈ exits graph last) ∨
    endsExplicitly graph block = false ∧ block.terminator.bind (callExits? graph) = none ∧ block.successors = [next]

-- A projection by which control does not come from a node to another block: the exit does not depend on it, it is the exit, or it
-- takes its control from elsewhere.
def Astray (graph : Graph) (schedule : Schedule) (id way : NodeId) : Prop :=
  target schedule way = .nowhere ∧ ¬ graph.Needed way ∨ way = Graph.stop ∨ graph.controlInput way ≠ .ok id

-- All that the lines name are successors, but for ways astray; the last line names each successor that is looked for.
structure LeadsOn (graph : Graph) (schedule : Schedule) (labels : List Nat) (block : Block) (listed : ListingBlock) : Prop where
  label : listed.label = block.label
  present : ∀ next ∈ block.successors, ∃ own, schedule.block? next = some own ∧ own.label ∈ labels
  targets : ∀ line ∈ listed.lines, ∀ target ∈ line.targets, (∃ next ∈ block.successors, target = blockTarget schedule next) ∨
    ∃ id ∈ block.nodes, ∃ way ∈ exits graph id, target = Listing.target schedule way ∧ Astray graph schedule id way
  leaves : ∀ last node, block.terminator = some last → graph.node? last = some node → node.op.isTerminator = true →
    block.nodes.getLast? = some last → ∃ line, listed.last? = some line ∧ line.leaves = true
  names : (endsExplicitly graph block = true → block.nodes.getLast? = block.terminator) →
    ∀ next ∈ block.successors, ∀ own, schedule.block? next = some own → Shown graph block next own.start →
      ∃ line, listed.last? = some line ∧ .block own.label ∈ line.targets

section

variable {graph : Graph} {schedule : Schedule} {ids : List NodeId} {flow : Flow} {initial fixed : Placement}
  (stages : Schedule.Stages graph schedule ids flow initial fixed)

include stages

theorem target_start {id : BlockId} {start : NodeId} (starts : flow.starts[id]? = some start) :
    target schedule start = blockTarget schedule id := by
  rw [target, Schedule.blockOf?, (stages.start_placed id starts).1]

theorem target_unneeded (unneeded : ¬ graph.Needed way) : target schedule way = .nowhere := by
  rw [target, Schedule.blockOf?]
  cases placed : schedule.placement.find? way with
  | none => rfl
  | some block => exact absurd (stages.placed_needed way block placed) unneeded

theorem exit_leads {source : BlockId} {id : NodeId} (placed : schedule.placement.find? id = some source)
    (member : way ∈ exits graph id) (needed : graph.Needed way) (inner : way ≠ Graph.stop)
    (taken : graph.controlInput way = .ok id) :
    ∃ next ∈ flow.successors source, target schedule way = blockTarget schedule next := by
  obtain ⟨node, read, starts⟩ := exit_starts member
  have listed := (mem_block_starts read).mpr ⟨(stages.mem_ids way).mpr ⟨needed, inner⟩, starts⟩
  obtain ⟨next, place⟩ := getElem?_of_mem listed
  have start : flow.starts[next]? = some way := by rw [stages.flow_starts, getElem?_toArray, place]
  exact ⟨next, stages.control_leads start taken placed, target_start stages start⟩

theorem block_start {id : BlockId} {block : Block} (inside : id < flow.size) (read : schedule.block? id = some block) :
    flow.starts[id]? = some block.start := by
  obtain ⟨empty, nodes, place, filled⟩ := stages.block_fields inside
  rw [read] at filled
  cases filled
  simp only [Schedule.emptyBlocks, Array.getElem?_mapIdx, Option.map_eq_some_iff] at place
  obtain ⟨start, there, rfl⟩ := place
  exact there

variable {flags : CodeFlags} {block : Block} {listed : ListingBlock} (id : BlockId)
  (member : id ∈ schedule.order) (read : schedule.block? id = some block)

include member read

theorem block_lists : Schedule.Listed graph schedule.placement block id
    (ids.filter fun v => schedule.placement.find? v = some id) block.nodes := by
  obtain ⟨_, again, _, lists⟩ := stages.block_listed id member
  rw [read] at again
  cases again
  exact lists

theorem block_leads : block.successors = flow.successors id := by
  obtain ⟨_, again, successors⟩ := stages.block_successors (stages.order_inside member)
  rw [read] at again
  cases again
  exact successors

theorem exit_target {v : NodeId} (inside : v ∈ block.nodes) (exit : way ∈ exits graph v) :
    (∃ next ∈ block.successors, target schedule way = blockTarget schedule next) ∨ Astray graph schedule v way := by
  have lists := block_lists stages id member read
  by_cases needed : graph.Needed way
  · by_cases inner : way = Graph.stop
    · exact .inr (.inr (.inl inner))
    · by_cases taken : graph.controlInput way = .ok v
      · rw [block_leads stages id member read]
        exact .inl (exit_leads stages (lists.placed v inside).1 exit needed inner taken)
      · exact .inr (.inr (.inr taken))
  · exact .inr (.inl ⟨target_unneeded stages needed, needed⟩)

theorem line_target (run : Prints graph schedule flags block listed) (line : Line) (shown : line ∈ listed.lines)
    (target : Target) (named : target ∈ line.targets) :
    (∃ next ∈ block.successors, target = blockTarget schedule next) ∨
      ∃ v ∈ block.nodes, ∃ way ∈ exits graph v, target = Listing.target schedule way ∧ Astray graph schedule v way := by
  -- A way out of one of the nodes, or the only successor.
  have source : (∃ v ∈ block.nodes, target ∈ (exits graph v).map (Listing.target schedule)) ∨
      ∃ next ∈ block.successors, target = blockTarget schedule next := by
    rcases line_source run shown with ⟨v, inside, own⟩ | jump
    · obtain ⟨_, _, shows⟩ := node_line_shows own
      exact .inl ⟨v, inside, shows.targets line rfl target named⟩
    cases both : block.terminator.bind (callExits? graph) with
    | some ways =>
      obtain ⟨last, ended, ways⟩ := Option.bind_eq_some_iff.mp both
      obtain ⟨own, alone, _, targets⟩ := fallthrough_call schedule ended ways
      rw [alone, mem_singleton] at jump
      rw [jump, targets] at named
      exact .inl ⟨last, (block_lists stages id member read).ended last ended, named⟩
    | none =>
      rw [fallthrough, both] at jump
      split at jump
      · contradiction
      · rename_i next _ only
        rw [mem_singleton.mp jump] at named
        exact .inr ⟨next, only ▸ mem_cons_self, mem_singleton.mp named⟩
      · cases jump
  rcases source with ⟨v, inside, named⟩ | next
  · obtain ⟨way, exit, rfl⟩ := mem_map.mp named
    exact (exit_target stages id member read inside exit).imp_right fun astray => ⟨v, inside, way, exit, rfl, astray⟩
  · exact .inl next

theorem last_names_exits (run : Prints graph schedule flags block listed)
    (final : endsExplicitly graph block → block.nodes.getLast? = block.terminator) (ended : block.terminator = some last)
    (exit : way ∈ exits graph last) : ∃ line, listed.last? = some line ∧ target schedule way ∈ line.targets := by
  have lists := block_lists stages id member read
  have needed := (lists.placed last (lists.ended last ended)).2
  obtain ⟨node, found⟩ := graph.node_of_lt last ((graph.schedulable_exact stages.gathered).2.2 last needed)
  have shape := ends_explicitly ended found
  cases explicit : endsExplicitly graph block with
  | true =>
    obtain ⟨shown, own, only⟩ := last_node run explicit ((final explicit).trans ended)
    obtain ⟨_, again, shows⟩ := node_line_shows own
    rw [found] at again
    cases again
    cases split : splits node.op with
    | true =>
      obtain ⟨line, rfl, instruction, targets⟩ := shows.splits split
      exact ⟨line, only line rfl instruction, targets ▸ mem_map_of_mem exit⟩
    | false =>
      rw [explicit, split, Bool.or_false] at shape
      rw [exits_joined found split, terminator_no_exits found shape.symm] at exit
      cases exit
  | false =>
    have joined : splits node.op = false := by
      rw [explicit, eq_comm, Bool.or_eq_false_iff] at shape
      exact shape.2
    cases both : callExits? graph last with
    | none =>
      rw [exits_joined found joined, both] at exit
      cases exit
    | some ways =>
      obtain ⟨line, alone, instruction, targets⟩ := fallthrough_call schedule ended both
      exact ⟨line, last_jump run explicit alone instruction, targets ▸ mem_map_of_mem exit⟩

theorem last_names (run : Prints graph schedule flags block listed)
    (final : endsExplicitly graph block → block.nodes.getLast? = block.terminator) {next : BlockId} {own : Block}
    (leads : next ∈ block.successors) (there : schedule.block? next = some own) (shown : Shown graph block next own.start) :
    ∃ line, listed.last? = some line ∧ .block own.label ∈ line.targets := by
  have named : blockTarget schedule next = .block own.label := by rw [blockTarget, there]
  rcases shown with ⟨last, ended, exit⟩ | ⟨implicit, none, only⟩
  · rw [block_leads stages id member read] at leads
    have start := block_start stages (stages.closed id next leads) there
    rw [← named, ← target_start stages start]
    exact last_names_exits stages id member read run final ended exit
  · have jump : fallthrough graph schedule block = [.goto (blockTarget schedule next)] := by rw [fallthrough, none, only]
    exact ⟨_, last_jump run implicit jump rfl, named ▸ mem_singleton_self _⟩

theorem block_leads_on (labels : List Nat) (run : Prints graph schedule flags block listed)
    (known : ∀ next ∈ schedule.order, ∀ own, schedule.block? next = some own → own.label ∈ labels) :
    LeadsOn graph schedule labels block listed := by
  refine ⟨run.1, ?_, line_target stages id member read run,
    last_leaves run, fun final next leads own there => last_names stages id member read run final leads there⟩
  intro next leads
  rw [block_leads stages id member read] at leads
  rw [stages.ordered] at member
  have reached : next ∈ schedule.order := stages.ordered ▸ flow.order_closed schedule.entry stages.closed member leads
  obtain ⟨own, there, _⟩ := stages.block_listed next reached
  exact ⟨own, there, known next reached own there⟩

end

theorem of_schedule_each {graph : Graph} {schedule : Schedule} {flags : CodeFlags}
    (run : ofSchedule graph schedule descriptor name flags limit = .ok listing) :
    Forall₂ (Prints graph schedule flags) (schedule.ordered.map Prod.snd) listing.blocks := by
  rw [ofSchedule, bind_eq_ok] at run
  obtain ⟨blocks, listed, same⟩ := run
  cases same
  exact of_blocks_each listed

end Listing

namespace Build

theorem runs_stage {ε α : Type} {wrap : ε → CompileError} {outcome : Except (Failure ε) α} {value : α}
    (run : (stage wrap outcome).run s = .ok (.ok value) t) : outcome = .ok value ∧ s = t := by
  cases outcome with
  | ok found =>
    cases run
    exact ⟨rfl, rfl⟩
  | error failure => cases failure <;> cases run

theorem compile_eq_ok {flags : CodeFlags} :
    (compile descriptor name flags limit).run s = .ok (.ok listing) t ↔ s.graph.verify = .ok () ∧
      ∃ schedule, Schedule.ofGraph s.graph = .ok schedule ∧
        Listing.ofSchedule s.graph schedule descriptor name flags limit = .ok listing ∧
        t = { s with journal := s.journal.note (.scheduled name schedule.size schedule.nodeCount) } := by
  constructor
  · intro run
    obtain ⟨_, _, got, rest⟩ := runs_step run
    cases got
    obtain ⟨_, _, checked, rest⟩ := runs_step rest
    obtain ⟨verified, rfl⟩ := runs_stage checked
    obtain ⟨schedule, _, scheduled, rest⟩ := runs_step rest
    obtain ⟨accepted, rfl⟩ := runs_stage scheduled
    obtain ⟨_, _, noted, rest⟩ := runs_step rest
    cases noted
    obtain ⟨listed, rfl⟩ := runs_stage rest
    exact ⟨verified, schedule, accepted, listed, rfl⟩
  · rintro ⟨verified, schedule, accepted, listed, rfl⟩
    change (stage .verify s.graph.verify >>= fun _ => _ : ExceptT CompileError Build Listing).run s = _
    rw [verified]
    change (stage .schedule (Schedule.ofGraph s.graph) >>= fun _ => _ : ExceptT CompileError Build Listing).run s = _
    rw [accepted]
    change (stage .listing (Listing.ofSchedule s.graph schedule descriptor name flags limit)).run _ = _
    rw [listed]
    rfl

end Build

theorem compiled_targets (descriptor : CallDescriptor) (name : String) (flags : CodeFlags) (limit : Nat) (s t : Workspace)
    (listing : Listing) (run : (Build.compile descriptor name flags limit).run s = .ok (.ok listing) t) :
    ∃ schedule, Schedule.ofGraph s.graph = .ok schedule ∧
      List.Forall₂ (Listing.LeadsOn s.graph schedule (listing.blocks.map ListingBlock.label)) (schedule.ordered.map Prod.snd)
        listing.blocks := by
  obtain ⟨_, schedule, accepted, listed, _⟩ := Build.compile_eq_ok.mp run
  obtain ⟨ids, flow, initial, fixed, stages⟩ := Schedule.of_graph_stages accepted
  have blocks := Listing.of_schedule_each listed
  refine ⟨schedule, accepted, ?_⟩
  have known : ∀ next ∈ schedule.order, ∀ own, schedule.block? next = some own →
      own.label ∈ listing.blocks.map ListingBlock.label := by
    intro next inside own there
    have labels : (schedule.ordered.map Prod.snd).map Block.label = listing.blocks.map ListingBlock.label := by
      rw [← forall₂_eq_eq_eq, forall₂_map_left_iff, forall₂_map_right_iff]
      exact blocks.imp fun _ _ own => own.1.symm
    have entry : (next, own) ∈ schedule.ordered := mem_filterMap.mpr ⟨next, inside, by rw [there]; rfl⟩
    rw [← labels]
    exact mem_map_of_mem (mem_map_of_mem entry)
  have reached : ∀ block ∈ schedule.ordered.map Prod.snd, ∃ id ∈ schedule.order, schedule.block? id = some block :=
    forall_mem_map.mpr fun entry inside => ⟨entry.1, schedule.mem_ordered inside⟩
  refine ((forall₂_and_left _ _).mpr ⟨reached, blocks⟩).imp ?_
  rintro block shown ⟨⟨id, member, read⟩, own⟩
  exact Listing.block_leads_on stages id member read _ own known

def Graph.spinning : Graph :=
  { Graph.empty with
    nodes := ⟨#[
      { op := .control .start, inputs := [] },
      { op := .control (.stop 1), inputs := [9] },
      { op := .constant (.heap Root.undefined), inputs := [] },
      { op := .control .branch, inputs := [2, 0] },
      { op := .control .ifTrue, inputs := [3] },
      { op := .control .ifTrue, inputs := [3] },
      { op := .control .ifFalse, inputs := [3] },
      { op := .control (.loop 2), inputs := [6, 7] },
      { op := .control (.merge 2), inputs := [4, 5] },
      { op := .control (.ret 1), inputs := [2, 2, 0, 8] }]⟩
    uses := ⟨#[[3, 9], [], [3, 9, 9], [4, 5, 6], [8], [8], [7], [7], [9], [1]]⟩ }

def Schedule.spinning : Schedule :=
  { blocks := #[⟨0, [], [1, 2], [0, 2, 3], some 3, some 0, 0, some 0⟩, ⟨4, [0], [3], [4], none, some 2, 1, some 0⟩,
      ⟨5, [0], [3], [5], none, some 1, 1, some 0⟩, ⟨8, [1, 2], [], [8, 9], some 9, some 3, 1, some 0⟩]
    order := [0, 2, 1, 3]
    placement := #[some 0, none, some 0, some 0, some 1, some 2, none, none, some 3, some 3]
    entry := 0
    dominators := ⟨#[some 0, some 0, some 0, some 0]⟩ }

theorem spinning_scheduled : Schedule.ofGraph .spinning = .ok .spinning := by cbv

theorem spinning_compiled : ∃ listing t,
    (Build.compile (.function 1 {}) "f" {} 100).run { graph := .spinning, journal := { mode := .recording } } = .ok (.ok listing) t ∧
      listing.blocks.map (fun block => (block.label, block.last?)) =
        [(0, some (.branch [2] (some (.block 2)) (some .nowhere))), (1, some (.goto (.block 3))),
          (2, some (.goto (.block 3))), (3, some (.ret [2, 2]))] := by
  have verified : Graph.spinning.verify = .ok () := ok_of_to_option _ () (by decide +kernel)
  exact ⟨_, _, Build.compile_eq_ok.mpr ⟨verified, .spinning, spinning_scheduled, rfl, rfl⟩, rfl⟩

theorem spinning_targets : ∃ listing t,
    (Build.compile (.function 1 {}) "f" {} 100).run { graph := .spinning, journal := { mode := .recording } } = .ok (.ok listing) t ∧
      listing.blocks.map (fun block => (block.label, block.last?)) =
        [(0, some (.branch [2] (some (.block 2)) (some .nowhere))), (1, some (.goto (.block 3))),
          (2, some (.goto (.block 3))), (3, some (.ret [2, 2]))] ∧
      ∃ schedule, Schedule.ofGraph .spinning = .ok schedule ∧
        Forall₂ (Listing.LeadsOn .spinning schedule (listing.blocks.map ListingBlock.label))
          (schedule.ordered.map Prod.snd) listing.blocks := by
  obtain ⟨listing, t, run, shape⟩ := spinning_compiled
  exact ⟨listing, t, run, shape, compiled_targets (.function 1 {}) "f" {} 100 _ t listing run⟩

theorem spinning_branch_unresolved : ∃ listing t,
    (Build.compile (.function 1 {}) "f" {} 100).run { graph := .spinning, journal := { mode := .recording } } = .ok (.ok listing) t ∧
    ∃ first ∈ listing.blocks, ∃ line, first.last? = some line ∧ line.leaves = false ∧ .nowhere ∈ line.targets ∧
      ∃ schedule own, Schedule.ofGraph .spinning = .ok schedule ∧ schedule.block? 0 = some own ∧ own.label = first.label ∧
        ∃ next ∈ own.successors, Listing.blockTarget schedule next ∉ line.targets := by
  obtain ⟨listing, t, run, shape⟩ := spinning_compiled
  have member : (0, some (.branch [2] (some (.block 2)) (some .nowhere))) ∈
      listing.blocks.map (fun block => (block.label, block.last?)) := shape ▸ mem_cons_self
  obtain ⟨first, inside, same⟩ := mem_map.mp member
  obtain ⟨label, last⟩ := Prod.mk.inj same
  refine ⟨listing, t, run, first, inside, _, last, rfl, by decide, .spinning, _, spinning_scheduled, rfl, label.symm, 2, by decide, ?_⟩
  decide

end SeaOfNodes
