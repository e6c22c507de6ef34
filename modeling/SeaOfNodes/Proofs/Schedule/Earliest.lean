import SeaOfNodes.Proofs.Dominators.Routes
import SeaOfNodes.Proofs.Schedule.Grounded

/-! Floating nodes are placed as early as their inputs allow. -/

namespace SeaOfNodes

open List Placement Schedule

namespace DominatorTree

theorem above_depth (tree : DominatorTree) {a b : Nat} (above : tree.Above a b) (different : a ≠ b) :
    tree.depth a < tree.depth b := by
  refine (tree.above_induct (motive := fun b => a = b ∨ tree.depth a < tree.depth b) above (.inl rfl)
    fun b parent read below _ before => .inr ?_).resolve_left different
  have step : tree.depth b = tree.depth parent + 1 := by
    rw [depth, read]
    simp [below]
  rcases before with rfl | deeper <;> omega

theorem Settling.root_above {predecessors : Nat → List Nat} {size : Nat} {tree : DominatorTree}
    (settling : Settling predecessors size tree) {position : Nat} (inside : position < size) : tree.Above 0 position := by
  induction position using Nat.strongRecOn with
  | _ position ih =>
    rcases Nat.eq_zero_or_pos position with zero | after
    · exact zero ▸ tree.above_refl 0
    · obtain ⟨parent, read⟩ := Option.isSome_iff_exists.mp (settling.placed position inside)
      have below := settling.rooted.below position parent read after
      rw [settling.rooted.above_iff read after]
      exact .inr (ih parent below (by omega))

end DominatorTree

namespace Schedule

variable {b block first : BlockId} {blocks : Array Block} {placement after : Placement} {id : NodeId} {inputs : List NodeId}

theorem dominates_refl (schedule : Schedule) (a : BlockId) : schedule.dominates a a := by
  rw [dominates]
  cases schedule.order.idxOf? a with
  | none => simp
  | some i => exact schedule.dominators.above_refl i

theorem value_block_extends {graph : Graph} (wider : placement.Extends after)
    (found : valueBlock? graph blocks placement id = some block) : valueBlock? graph blocks after id = some block := by
  simp only [valueBlock?, bind, Option.bind_eq_some_iff] at found ⊢
  obtain ⟨own, here, rest⟩ := found
  refine ⟨own, wider id own here, ?_⟩
  split at rest
  · split at rest
    · exact wider _ _ rest
    · exact rest
  · exact rest

theorem deepest_block_extends {graph : Graph} (wider : placement.Extends after)
    (found : deepestBlock graph blocks placement inputs first = .ok block) :
    deepestBlock graph blocks after inputs first = .ok block := by
  fun_induction deepestBlock graph blocks placement inputs first with
  | case1 => exact found
  | case2 => cases found
  | case3 input rest first candidate value _ ih =>
    rw [deepestBlock, value_block_extends wider value]
    exact ih found

def depthOf (blocks : Array Block) (id : BlockId) : Nat := ((blocks[id]?).map Block.depth).getD 0

namespace Stages

variable {graph : Graph} {schedule : Schedule} {ids : List NodeId} {flow : Flow} {initial fixed : Placement}
  (stages : Stages graph schedule ids flow initial fixed)

include stages

theorem dominates_trans {a c : BlockId} (member : c ∈ schedule.order) (upper : schedule.dominates a b)
    (lower : schedule.dominates b c) : schedule.dominates a c := by
  have middle := stages.dominates_ordered member lower
  have first := stages.dominates_ordered middle upper
  obtain ⟨i, here⟩ := getElem?_of_mem first
  obtain ⟨j, there⟩ := getElem?_of_mem middle
  obtain ⟨k, place⟩ := getElem?_of_mem member
  rw [stages.dominates_positions here there] at upper
  rw [stages.dominates_positions there place] at lower
  rw [stages.dominates_positions here place]
  exact schedule.dominators.above_trans upper lower

theorem depth_at {j b : Nat} (place : schedule.order[j]? = some b) :
    depthOf (emptyBlocks flow schedule.order schedule.dominators) b = schedule.dominators.depth j := by
  have inside := stages.order_inside (mem_of_getElem? place)
  rw [← idx_of_eq_some stages.distinct] at place
  have start : flow.starts[b]? = some flow.starts[b] := Array.getElem?_eq_getElem inside
  simp [depthOf, emptyBlocks, Array.getElem?_mapIdx, start, place]

theorem dominates_line {a c : BlockId} (member : c ∈ schedule.order) (first : schedule.dominates a c)
    (second : schedule.dominates b c) (shallow : depthOf (emptyBlocks flow schedule.order schedule.dominators) a ≤ depthOf
      (emptyBlocks flow schedule.order schedule.dominators) b) : schedule.dominates a b := by
  obtain ⟨i, here⟩ := getElem?_of_mem (stages.dominates_ordered member first)
  obtain ⟨j, there⟩ := getElem?_of_mem (stages.dominates_ordered member second)
  obtain ⟨k, place⟩ := getElem?_of_mem member
  rw [stages.dominates_positions here place] at first
  rw [stages.dominates_positions there place] at second
  rw [stages.depth_at here, stages.depth_at there] at shallow
  rw [stages.dominates_positions here there]
  by_cases order : i ≤ j
  · exact schedule.dominators.above_line first second order
  · -- Then b would be strictly above a, and less deep.
    have above := schedule.dominators.above_line second first (by omega)
    have deeper := schedule.dominators.above_depth above (by omega)
    omega

theorem entry_dominates {c : BlockId} (member : c ∈ schedule.order) : schedule.dominates schedule.entry c := by
  obtain ⟨k, place⟩ := getElem?_of_mem member
  have first : schedule.order[0]? = some schedule.entry := by
    rw [stages.ordered]
    exact flow.order_first schedule.entry
  rw [stages.dominates_positions first place]
  obtain ⟨_, _, settling, _⟩ := stages.settled
  exact settling.root_above (List.getElem?_eq_some_iff.mp place).1

-- Filling in the nodes of the blocks changes no terminator.
theorem value_block_filled (placement : Placement) (id : NodeId) :
    valueBlock? graph (emptyBlocks flow schedule.order schedule.dominators) placement id =
      valueBlock? graph schedule.blocks placement id := by
  have ended : ∀ block : BlockId,
      ((emptyBlocks flow schedule.order schedule.dominators)[block]?.any fun block => decide (block.terminator = some id)) =
        (schedule.blocks[block]?.any fun block => decide (block.terminator = some id)) := by
    intro block
    by_cases inside : block < flow.size
    · obtain ⟨empty, nodes, read, filled⟩ := stages.block_fields inside
      rw [block?] at filled
      rw [read, filled]
      rfl
    · have outside : (emptyBlocks flow schedule.order schedule.dominators).size ≤ block := by
        simpa [emptyBlocks, Flow.size] using inside
      have beyond : schedule.blocks.size ≤ block := stages.size_blocks ▸ Nat.le_of_not_lt inside
      rw [Array.getElem?_eq_none outside, Array.getElem?_eq_none beyond]
  simp only [valueBlock?, ended]

theorem placement_settled (found : schedule.placement.find? id = some block) :
    fixed.find? id = some block ∨ deepestBlock graph (emptyBlocks flow schedule.order schedule.dominators)
      schedule.placement (graph.inputsOf id) schedule.entry = .ok block := by
  refine stages.placement_keeps (fun placement => placement.Extends schedule.placement → ∀ id block,
    placement.find? id = some block → fixed.find? id = some block ∨
      deepestBlock graph (emptyBlocks flow schedule.order schedule.dominators) schedule.placement (graph.inputsOf id)
        schedule.entry = .ok block) (fun _ _ _ read => .inl read) ?_ (fun _ _ read => read) id block found
  intro placement id block held _ bare deepest wider other spot read
  have narrower := extends_trans (placement.extends_put block bare) wider
  rw [find_put] at read
  split at read
  · rename_i same
    cases read
    rw [same.1]
    exact .inr (deepest_block_extends narrower deepest)
  · exact held narrower other spot read

end Stages

def WellPlaced (schedule : Schedule) (graph : Graph) (placement : Placement) : Prop :=
  ∀ id block node, placement.find? id = some block → graph.node? id = some node →
    node.op.startsBlock = false → node.op.isPhi = false → ∀ input ∈ node.inputs,
      ∃ source, valueBlock? graph schedule.blocks placement input = some source ∧ schedule.dominates source block = true

instance (schedule : Schedule) (graph : Graph) (placement : Placement) : Decidable (schedule.WellPlaced graph placement) :=
  decidable_of_iff (∀ id ∈ List.range placement.size, ∀ block ∈ placement.find? id, ∀ node ∈ graph.node? id,
    node.op.startsBlock = false → node.op.isPhi = false → ∀ input ∈ node.inputs,
      ∃ source ∈ valueBlock? graph schedule.blocks placement input, schedule.dominates source block = true)
    ⟨fun checked id block node found => checked id (mem_range.mpr (placement.find_inside found)) block found node,
      fun well id _ block found node => well id block node found⟩

structure Assigns (schedule : Schedule) (graph : Graph) (other : Placement) : Prop where
  pinned : ∀ id, ¬ graph.Floats id → other.find? id = schedule.placement.find? id
  whole : ∀ id, (other.find? id).isSome ↔ (schedule.placement.find? id).isSome
  inside : ∀ id block, other.find? id = some block → block < schedule.blocks.size

section

variable {graph : Graph} {blocks : Array Block} {placement : Placement}

theorem deepest_block_within (holds : BlockId → Prop)
    (candidates : ∀ input ∈ inputs, ∀ source, valueBlock? graph blocks placement input = some source → holds source)
    (begins : holds first) (run : deepestBlock graph blocks placement inputs first = .ok block) : holds block := by
  fun_induction deepestBlock graph blocks placement inputs first with
  | case1 =>
    cases run
    exact begins
  | case2 => cases run
  | case3 input rest first source value _ ih =>
    refine ih (fun other later => candidates other (mem_cons_of_mem input later)) ?_ run
    split
    · exact candidates input mem_cons_self source value
    · exact begins

theorem deepest_block_depth (run : deepestBlock graph blocks placement inputs first = .ok block) :
    depthOf blocks first ≤ depthOf blocks block ∧ ∀ input ∈ inputs, ∃ source,
      valueBlock? graph blocks placement input = some source ∧ depthOf blocks source ≤ depthOf blocks block := by
  fun_induction deepestBlock graph blocks placement inputs first with
  | case1 =>
    cases run
    exact ⟨le_rfl, by simp⟩
  | case2 => cases run
  | case3 input rest first source value _ ih =>
    obtain ⟨next, others⟩ := ih run
    have both : depthOf blocks first ≤ depthOf blocks block ∧ depthOf blocks source ≤ depthOf blocks block := by
      change depthOf blocks (if depthOf blocks first < depthOf blocks source then source else first) ≤ _ at next
      split at next <;> omega
    refine ⟨both.1, forall_mem_cons.mpr ⟨⟨source, value, both.2⟩, others⟩⟩

end

section

variable {graph : Graph} (blocks : Array Block)

-- Calls and the projections of their success take control or start a block, so they do not float.
theorem value_block_cases (id : NodeId) :
    (∀ first second : Placement, (∀ id, ¬ graph.Floats id → first.find? id = second.find? id) →
      valueBlock? graph blocks first id = valueBlock? graph blocks second id) ∨
    ∀ placement : Placement, valueBlock? graph blocks placement id = placement.find? id := by
  by_cases plain : ∀ site, (graph.node? id).map Node.op ≠ some (.call site)
  · refine .inr fun placement => ?_
    rw [valueBlock?]
    cases placement.find? id with
    | none => rfl
    | some block =>
      simp only [bind, Option.bind_some]
      rfl
  obtain ⟨site, called⟩ := not_forall_not.mp plain
  obtain ⟨node, read, call⟩ := Option.map_eq_some_iff.mp called
  refine .inl fun first second pinned => ?_
  have fixed : ¬ graph.Floats id := by
    rintro ⟨again, reread, free, _⟩
    rw [read] at reread
    cases reread
    simp [call, Operator.layout] at free
  have successes : ∀ success, (graph.usesOf id).find? (fun user =>
      (graph.node? user).any fun node => node.op = .control .ifSuccess) = some success →
      first.find? success = second.find? success := by
    intro success found
    have holds := find?_some found
    obtain ⟨projection, there, shape⟩ := (Option.any_eq_true _ _).mp holds
    refine pinned success ?_
    rintro ⟨again, reread, _, inner⟩
    rw [there] at reread
    cases reread
    simp [of_decide_eq_true shape, Operator.startsBlock] at inner
  rw [valueBlock?, valueBlock?, pinned id fixed, read, Option.map_some, call]
  cases second.find? id with
  | none => rfl
  | some block =>
    simp only [bind, Option.bind_some]
    split
    · rename_i success _ found
      exact successes success found
    · rfl

end

section

variable {input : NodeId} {target : BlockId} {graph : Graph} {schedule : Schedule} {ids : List NodeId} {flow : Flow}
  {initial fixed : Placement} (stages : Stages graph schedule ids flow initial fixed)
  (reached : ∀ id < schedule.blocks.size, id ∈ schedule.order) {other : Placement} (assigns : schedule.Assigns graph other)
  (well : schedule.WellPlaced graph other)

-- Of two placements of a node, the first is in a block that dominates that of the second.
def Precedes (schedule : Schedule) (placement other : Placement) : Prop :=
  ∀ id a b, placement.find? id = some a → other.find? id = some b → schedule.dominates a b = true

include stages assigns in
theorem value_precedes (wider : placement.Extends schedule.placement) (precedes : schedule.Precedes placement other)
    (source : BlockId)
    (here : valueBlock? graph (emptyBlocks flow schedule.order schedule.dominators) placement input = some source)
    (there : valueBlock? graph schedule.blocks other input = some target) : schedule.dominates source target := by
  rw [stages.value_block_filled] at here
  rcases value_block_cases schedule.blocks input with call | plain
  · have final := value_block_extends wider here
    rw [call _ _ fun id fixed => (assigns.pinned id fixed).symm, there] at final
    cases final
    exact schedule.dominates_refl target
  · rw [plain] at here there
    exact precedes input source target here there

theorem floats_shape (floats : graph.Floats id) :
    ∃ node, graph.node? id = some node ∧ node.op.startsBlock = false ∧ node.op.isPhi = false := by
  obtain ⟨node, read, free, inner⟩ := floats
  refine ⟨node, read, inner, ?_⟩
  cases op : node.op with
  | phi | effectPhi => simp [op, Operator.layout, InputLayout.plain] at free
  | _ => rfl

include stages reached assigns well in
-- Whatever the inputs of a floating node are at hand in dominates the block that the node was given.
theorem inputs_precede (wider : placement.Extends schedule.placement) (precedes : schedule.Precedes placement other)
    (floats : graph.Floats id) (there : other.find? id = some b) (input : NodeId) (edge : input ∈ graph.inputsOf id)
    (source : BlockId)
    (here : valueBlock? graph (emptyBlocks flow schedule.order schedule.dominators) placement input = some source) :
    schedule.dominates source b := by
  obtain ⟨node, read, inner, straight⟩ := floats_shape floats
  rw [graph.inputs_of_eq id node read] at edge
  obtain ⟨target, value, above⟩ := well id b node there read inner straight input edge
  have before := value_precedes stages assigns wider precedes source here value
  exact stages.dominates_trans (reached b (assigns.inside id b there)) before above

include stages reached assigns well in
theorem placement_precedes : schedule.Precedes schedule.placement other := by
  refine stages.placement_keeps (fun placement => placement.Extends schedule.placement → schedule.Precedes placement other)
    ?_ ?_ fun _ _ found => found
  · intro _ id a b here there
    have fixedHere := stages.placement_extends id a here
    have pinned : ¬ graph.Floats id := by
      intro floats
      rw [stages.fixed_grounded.1.pinned id floats] at here
      cases here
    rw [assigns.pinned id pinned, fixedHere] at there
    cases there
    exact schedule.dominates_refl a
  · intro placement id block held _ bare deepest wider other' a b here there
    have narrower := extends_trans (placement.extends_put block bare) wider
    have precedes := held narrower
    have placed := wider other' a here
    rw [find_put] at here
    split at here
    · rename_i same
      obtain ⟨rfl, _⟩ := same
      cases here
      by_cases floats : graph.Floats other'
      · refine deepest_block_within (fun source => schedule.dominates source b) ?_ ?_ deepest
        · exact inputs_precede stages reached assigns well narrower precedes floats there
        · exact stages.entry_dominates (reached b (assigns.inside other' b there))
      · rw [assigns.pinned other' floats, placed] at there
        cases there
        exact schedule.dominates_refl _
    · exact precedes other' a b here there

include assigns in
theorem value_at_hand (there : valueBlock? graph schedule.blocks other input = some target) :
    ∃ source, valueBlock? graph schedule.blocks schedule.placement input = some source := by
  rcases value_block_cases schedule.blocks input with call | plain
  · exact ⟨target, (call _ _ assigns.pinned).symm.trans there⟩
  · rw [plain] at there ⊢
    exact Option.isSome_iff_exists.mp ((assigns.whole input).mp (there ▸ rfl))

include stages reached assigns well in
theorem floating_well_placed {id : NodeId} (floats : graph.Floats id) {block : BlockId}
    (here : schedule.placement.find? id = some block) {input : NodeId} (edge : input ∈ graph.inputsOf id) :
    ∃ source, valueBlock? graph schedule.blocks schedule.placement input = some source ∧
      schedule.dominates source block := by
  have precedes := placement_precedes stages reached assigns well
  obtain ⟨b, there⟩ := Option.isSome_iff_exists.mp ((assigns.whole id).mpr (here ▸ rfl))
  have unpinned : fixed.find? id ≠ some block := by
    rw [stages.fixed_grounded.1.pinned id floats]
    simp
  have deepest := (stages.placement_settled here).resolve_left unpinned
  obtain ⟨source, value, shallow⟩ := (deepest_block_depth deepest).2 input edge
  have above := inputs_precede stages reached assigns well (fun _ _ found => found) precedes floats there input edge source value
  rw [stages.value_block_filled] at value
  -- Both are among the blocks that dominate the block of the other placement.
  exact ⟨source, value, stages.dominates_line (reached b (assigns.inside id b there)) above
    (precedes id block b here there) shallow⟩

include stages reached assigns well in
theorem pinned_well_placed {id : NodeId} (pinned : ¬ graph.Floats id) {block : BlockId} {node : Node}
    (here : schedule.placement.find? id = some block) (read : graph.node? id = some node)
    (inner : node.op.startsBlock = false) (straight : node.op.isPhi = false) {input : NodeId} (edge : input ∈ node.inputs) :
    ∃ source, valueBlock? graph schedule.blocks schedule.placement input = some source ∧
      schedule.dominates source block := by
  have there : other.find? id = some block := (assigns.pinned id pinned).trans here
  obtain ⟨target, value, above⟩ := well id block node there read inner straight input edge
  obtain ⟨source, found⟩ := value_at_hand assigns value
  have before := value_precedes stages assigns (fun _ _ found => found)
    (placement_precedes stages reached assigns well) source (by rw [stages.value_block_filled]; exact found) value
  exact ⟨source, found, stages.dominates_trans (reached block (assigns.inside id block there)) before above⟩

end

end Schedule

theorem floating_nodes_earliest (graph : Graph) (schedule : Schedule) (accepted : Schedule.ofGraph graph = .ok schedule)
    (reached : ∀ id < schedule.blocks.size, id ∈ schedule.order) (other : Placement)
    (assigns : schedule.Assigns graph other) (well : schedule.WellPlaced graph other) :
    schedule.WellPlaced graph schedule.placement ∧ ∀ id, graph.Floats id → ∀ a, schedule.blockOf? id = some a →
      ∃ b, other.find? id = some b ∧ schedule.dominates a b = true := by
  obtain ⟨ids, flow, initial, fixed, stages⟩ := of_graph_stages accepted
  constructor
  · intro id block node here read inner straight input edge
    by_cases floats : graph.Floats id
    · rw [← graph.inputs_of_eq id node read] at edge
      exact floating_well_placed stages reached assigns well floats here edge
    · exact pinned_well_placed stages reached assigns well floats here read inner straight edge
  · intro id _ a here
    have placed : schedule.placement.find? id = some a := here
    obtain ⟨b, there⟩ := Option.isSome_iff_exists.mp ((assigns.whole id).mpr (placed ▸ rfl))
    exact ⟨b, there, placement_precedes stages reached assigns well id a b here there⟩

theorem assigns_put (graph : Graph) (schedule : Schedule) (id : NodeId) (node : Node) (block : BlockId)
    (read : graph.node? id = some node) (free : node.op.layout.controls = 0 ∧ node.op.startsBlock = false)
    (placed : (schedule.placement.find? id).isSome) (bound : block < schedule.blocks.size)
    (inside : ∀ other ∈ range schedule.placement.size, ∀ own ∈ schedule.placement.find? other,
      own < schedule.blocks.size) : schedule.Assigns graph (schedule.placement.put id block) := by
  obtain ⟨old, found⟩ := Option.isSome_iff_exists.mp placed
  have within := schedule.placement.find_inside found
  refine ⟨fun other fixed => ?_, fun other => ?_, fun other own here => ?_⟩
  · rw [find_put, if_neg]
    rintro ⟨same, _⟩
    exact fixed (same ▸ ⟨node, read, free⟩)
  · rw [find_put]
    split
    · rename_i same
      simp [same.1, found]
    · rfl
  · rw [find_put] at here
    split at here
    · cases here
      exact bound
    · exact inside other (mem_range.mpr (schedule.placement.find_inside here)) own here

def Graph.mergedCall : Graph :=
  { Graph.empty with
    nodes := ⟨#[
      { op := .control .start, inputs := [] },
      { op := .control (.stop 1), inputs := [6] },
      { op := .constant (.int32 1), inputs := [] },
      { op := .call ⟨0, 1, 1, false, .none⟩, inputs := [2, 0, 0] },
      { op := .control .ifSuccess, inputs := [3] },
      { op := .control (.merge 1), inputs := [4] },
      { op := .control (.ret 1), inputs := [2, 7, 3, 5] },
      { op := .machine .int32Add, inputs := [3, 2] }]⟩
    uses := ⟨#[[3, 3], [], [3, 6, 7], [4, 6, 7], [5], [6], [1], [6]]⟩ }

theorem merged_call_earliest : ∃ schedule, Schedule.ofGraph .mergedCall = .ok schedule ∧
    (∀ id < schedule.blocks.size, id ∈ schedule.order) ∧ schedule.blockOf? 7 = some 1 ∧
    schedule.Assigns .mergedCall (schedule.placement.put 7 2) ∧
    schedule.WellPlaced .mergedCall (schedule.placement.put 7 2) ∧
    schedule.WellPlaced .mergedCall schedule.placement ∧ schedule.dominates 1 2 = true := by
  obtain ⟨schedule, accepted, checked⟩ := scheduled_check .mergedCall
    (fun schedule => (∀ id < schedule.blocks.size, id ∈ schedule.order) ∧ schedule.blockOf? 7 = some 1 ∧
      schedule.WellPlaced .mergedCall (schedule.placement.put 7 2) ∧ 2 < schedule.blocks.size ∧
      ∀ other ∈ range schedule.placement.size, ∀ own ∈ schedule.placement.find? other, own < schedule.blocks.size)
    (by cbv)
  obtain ⟨reached, placed, well, bound, inside⟩ := of_decide_eq_true checked
  have found : schedule.placement.find? 7 = some 1 := placed
  have assigns := assigns_put .mergedCall schedule 7 _ 2 rfl ⟨rfl, rfl⟩ (found ▸ rfl) bound inside
  obtain ⟨earliest, before⟩ := floating_nodes_earliest .mergedCall schedule accepted reached _ assigns well
  obtain ⟨b, there, above⟩ := before 7 ⟨_, rfl, rfl, rfl⟩ 1 placed
  rw [find_put, if_pos ⟨rfl, schedule.placement.find_inside found⟩] at there
  cases there
  exact ⟨schedule, accepted, reached, placed, assigns, well, earliest, above⟩

end SeaOfNodes
