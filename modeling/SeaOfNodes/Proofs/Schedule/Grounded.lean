import SeaOfNodes.Proofs.Schedule.Homes
import SeaOfNodes.Proofs.Schedule.Needed

/-!
The stages of a run that the scheduler accepts, for graphs of any shape: where control nodes and terminators end up, and a rule
for what holds of the placement while floating nodes are added to it.
-/

namespace SeaOfNodes

open List Placement

variable {id start control : NodeId} {after : Placement} {target : BlockId}

theorem mem_filter_m {ε α : Type} {items kept : List α} {test : α → Except ε Bool}
    (run : items.filterM test = .ok kept) (item : α) : item ∈ kept ↔ item ∈ items ∧ test item = .ok true := by
  have steps : ∀ before all : List α, items.filterAuxM test before = .ok all →
      (item ∈ all ↔ item ∈ before ∨ item ∈ items ∧ test item = .ok true) := by
    clear run
    induction items with
    | nil =>
      intro before all done
      cases done
      simp
    | cons first rest ih =>
      intro before all done
      rw [filterAuxM, bind_eq_ok] at done
      obtain ⟨chosen, tested, later⟩ := done
      rw [ih _ all later, mem_cons]
      cases chosen with
      | false =>
        have other : item = first → test item ≠ .ok true := by
          rintro rfl
          rw [tested]
          simp
        show item ∈ before ∨ item ∈ rest ∧ test item = .ok true ↔ _
        tauto
      | true =>
        have same : item = first → test item = .ok true := by
          rintro rfl
          exact tested
        show item ∈ first :: before ∨ item ∈ rest ∧ test item = .ok true ↔ _
        rw [mem_cons]
        tauto
  rw [filterM, bind_eq_ok] at run
  obtain ⟨all, done, same⟩ := run
  rw [pure_eq_ok] at same
  subst same
  rw [mem_reverse, steps [] all done]
  simp

namespace Placement

theorem extends_trans {first second third : Placement} (one : first.Extends second) (two : second.Extends third) :
    first.Extends third := fun id block found => two id block (one id block found)

theorem find_inside (placement : Placement) {id : NodeId} {block : BlockId} (found : placement.find? id = some block) :
    id < placement.size := by
  by_contra outside
  rw [find?, Array.getElem?_eq_none (Nat.le_of_not_lt outside)] at found
  cases found

theorem find_put_all (placement : Placement) (ids : List NodeId) (block : BlockId) (other : NodeId) :
    (ids.foldl (fun placement id => placement.put id block) placement).find? other =
      if other ∈ ids ∧ other < placement.size then some block else placement.find? other := by
  induction ids generalizing placement with
  | nil => simp
  | cons id rest ih =>
    rw [foldl_cons, ih, size_put, find_put]
    simp only [mem_cons]
    by_cases later : other ∈ rest
    · by_cases inside : other < placement.size
      · simp [later, inside]
      · have outside : ¬ (other = id ∧ id < placement.size) := fun ⟨same, bound⟩ => inside (same ▸ bound)
        simp [inside, outside]
    · by_cases same : other = id
      · subst same
        simp [later]
      · simp [later, same]

end Placement

namespace Graph

def Floats (graph : Graph) (id : NodeId) : Prop :=
  ∃ node, graph.node? id = some node ∧ node.op.layout.controls = 0 ∧ node.op.startsBlock = false

theorem control_input_head (graph : Graph) {previous : NodeId} (fetched : graph.controlInput id = .ok previous) :
    ∃ node, graph.node? id = some node ∧ (controlInputs node).head? = some previous ∧ previous ∈ graph.inputsOf id := by
  simp only [controlInput, bind_eq_ok, layout_eq_ok, input_eq_ok, add_zero] at fetched
  obtain ⟨layout, ⟨node, read, _, rfl⟩, _, _, again, same, found⟩ := fetched
  rw [read] at same
  cases same
  refine ⟨node, read, ?_, ?_⟩
  · rw [head?_eq_getElem?, controlInputs, getElem?_drop]
    exact found
  · rw [graph.inputs_of_eq id node read]
    exact mem_of_getElem? found

end Graph

-- Before floating nodes are placed.
structure Grounded (graph : Graph) (ids : List NodeId) (placement : Placement) : Prop extends
    AtHome graph (graph.blockStarts ids) placement where
  pinned : ∀ id, graph.Floats id → placement.find? id = none
  needed : ∀ id block, placement.find? id = some block → graph.Needed id

section

variable {block : BlockId} {count index : Nat} {jumps : List Jump} {entries : List (NodeId × BlockId)} {graph : Graph}
  {ids : List NodeId} (distinct : ids.Nodup) {placement : Placement}
  (grounded : Grounded graph ids placement)

include grounded

theorem walk_grounded {origin current : NodeId} {steps : Nat} {passed all : List NodeId}
    (needed : graph.Needed current) (run : placement.walk graph origin steps current passed = .ok (block, all)) :
    ∃ more, all = more ++ passed ∧ Home graph (graph.blockStarts ids) current block ∧
      (∀ id ∈ more, Home graph (graph.blockStarts ids) id block ∧ ¬ graph.Floats id ∧ graph.Needed id ∧ id < graph.size) ∧
      (current ∈ more ∨ placement.find? current = some block) := by
  induction steps generalizing current passed with
  | zero => cases run
  | succ steps ih =>
    rw [walk] at run
    cases placed : placement.find? current with
    | some found =>
      rw [placed] at run
      cases run
      exact ⟨[], rfl, grounded.homes current block placed, by simp, .inr rfl⟩
    | none =>
      rw [placed] at run
      simp only [bind_eq_ok, of_faulty_eq_ok, graph.op_eq_ok, checked_layout_eq_ok] at run
      obtain ⟨op, ⟨node, read, rfl⟩, layout, ⟨_, rfl⟩, rest⟩ := run
      split at rest
      · cases rest
      rename_i goes
      simp only [bind_eq_ok, of_faulty_eq_ok] at rest
      obtain ⟨previous, fetched, walked⟩ := rest
      obtain ⟨again, reread, first, input⟩ := graph.control_input_head fetched
      obtain ⟨more, same, home, homes, _⟩ :=
        ih (graph.needed_input current previous needed input) walked
      rw [read] at reread
      cases reread
      have inner : current ∉ graph.blockStarts ids := by
        intro start
        obtain ⟨own, place⟩ := getElem?_of_mem start
        rw [grounded.started own current place] at placed
        cases placed
      have here : Home graph (graph.blockStarts ids) current block :=
        .pass current previous node block inner read first home
      have fixed : ¬ graph.Floats current := by
        rintro ⟨other, reread, free, _⟩
        rw [read] at reread
        cases reread
        simp [free] at goes
      refine ⟨more ++ [current], by simp [same], here, ?_, .inl (by simp)⟩
      intro id inside
      rcases mem_append.mp inside with others | last
      · exact homes id others
      · exact mem_singleton.mp last ▸ ⟨here, fixed, needed, graph.node_lt read⟩

include distinct

theorem grounded_put (home : Home graph (graph.blockStarts ids) id block)
    (fixed : ¬ graph.Floats id) (needed : graph.Needed id) :
    Grounded graph ids (placement.put id block) ∧ placement.Extends (placement.put id block) := by
  refine ⟨⟨at_home_put distinct grounded.toAtHome home, ?_, ?_⟩, ?_⟩
  · intro other floats
    rw [find_put, if_neg]
    · exact grounded.pinned other floats
    · rintro ⟨same, _⟩
      exact fixed (same ▸ floats)
  · intro other found read
    rw [find_put] at read
    split at read
    · rename_i same
      exact same.1 ▸ needed
    · exact grounded.needed other found read
  · intro other found read
    rw [find_put]
    split
    · rename_i same
      have there : Home graph (graph.blockStarts ids) id found := same.1 ▸ grounded.homes other found read
      exact congrArg some (home_unique (block_starts_nodup distinct) home there)
    · exact read

theorem grounded_put_all (more : List NodeId) (block : BlockId)
    (homes : ∀ id ∈ more, Home graph (graph.blockStarts ids) id block ∧ ¬ graph.Floats id ∧ graph.Needed id) :
    Grounded graph ids (more.foldl (fun placement id => placement.put id block) placement) ∧
      placement.Extends (more.foldl (fun placement id => placement.put id block) placement) := by
  induction more generalizing placement with
  | nil => exact ⟨grounded, fun _ _ found => found⟩
  | cons first rest ih =>
    obtain ⟨home, fixed, needed⟩ := homes first mem_cons_self
    obtain ⟨step, wider⟩ := grounded_put distinct grounded home fixed needed
    obtain ⟨final, widest⟩ := ih step fun id member => homes id (mem_cons_of_mem first member)
    exact ⟨final, extends_trans wider widest⟩

theorem control_block_grounded (needed : graph.Needed id) (run : placement.controlBlock graph id = .ok (block, after)) :
    Home graph (graph.blockStarts ids) id block ∧ Grounded graph ids after ∧ placement.Extends after ∧
      after.find? id = some block := by
  simp only [controlBlock, bind_eq_ok, pure_eq_ok] at run
  obtain ⟨⟨own, all⟩, walked, same⟩ := run
  obtain ⟨rfl, rfl⟩ := Prod.mk.inj same
  clear same
  obtain ⟨more, rfl, home, homes, here⟩ := walk_grounded grounded needed walked
  rw [append_nil]
  obtain ⟨final, wider⟩ := grounded_put_all distinct grounded more own
    fun other member => ⟨(homes other member).1, (homes other member).2.1, (homes other member).2.2.1⟩
  refine ⟨home, final, wider, ?_⟩
  rw [find_put_all]
  rcases here with passed | placed
  · rw [if_pos ⟨passed, by rw [grounded.sized]; exact (homes id passed).2.2.2⟩]
  · rw [placed, ite_self]

theorem jumps_into_grounded (needed : graph.Needed start)
    (run : Flow.jumpsInto graph start target placement count index = .ok (jumps, after)) :
    Grounded graph ids after ∧ placement.Extends after ∧
      ∀ jump ∈ jumps, ∃ control, after.find? control = some jump.source ∧ ∀ id, jump.terminator = some id → id = control := by
  induction count generalizing placement index jumps with
  | zero =>
    cases run
    exact ⟨grounded, fun _ _ found => found, by simp⟩
  | succ count ih =>
    simp only [Flow.jumpsInto, bind_eq_ok, of_faulty_eq_ok, pure_eq_ok, graph.input_eq_ok] at run
    obtain ⟨control, ⟨node, read, input⟩, ⟨source, middle⟩, found, op, _, ⟨further, final⟩, rest, same⟩ := run
    cases same
    have member : control ∈ graph.inputsOf start := graph.inputs_of_eq start node read ▸ mem_of_getElem? input
    obtain ⟨_, middleGrounded, wider, placed⟩ := control_block_grounded distinct grounded
      (graph.needed_input start control needed member) found
    obtain ⟨finalGrounded, widest, others⟩ := ih middleGrounded rest
    refine ⟨finalGrounded, extends_trans wider widest, forall_mem_cons.mpr
      ⟨⟨control, widest control source placed, fun id ended => ?_⟩, others⟩⟩
    by_cases starts : op.startsBlock
    · simp [starts] at ended
    · simpa [starts] using ended.symm

theorem all_jumps_grounded (needed : ∀ entry ∈ entries, graph.Needed entry.1)
    (run : Flow.allJumps graph entries placement = .ok (jumps, after)) :
    Grounded graph ids after ∧ placement.Extends after ∧
      ∀ jump ∈ jumps, ∃ control, after.find? control = some jump.source ∧ ∀ id, jump.terminator = some id → id = control := by
  induction entries generalizing placement jumps with
  | nil =>
    cases run
    exact ⟨grounded, fun _ _ found => found, by simp⟩
  | cons entry rest ih =>
    obtain ⟨start, target⟩ := entry
    simp only [Flow.allJumps, bind_eq_ok, of_faulty_eq_ok, pure_eq_ok] at run
    obtain ⟨layout, _, ⟨own, middle⟩, here, ⟨further, final⟩, later, same⟩ := run
    cases same
    obtain ⟨middleGrounded, wider, mine⟩ := jumps_into_grounded distinct grounded (needed (start, target) mem_cons_self) here
    obtain ⟨finalGrounded, widest, others⟩ :=
      ih middleGrounded (fun entry member => needed entry (mem_cons_of_mem _ member)) later
    refine ⟨finalGrounded, extends_trans wider widest, forall_mem_append.mpr ⟨fun jump first => ?_, others⟩⟩
    obtain ⟨control, placed, only⟩ := mine jump first
    exact ⟨control, widest control jump.source placed, only⟩

theorem jumps_into_enter (needed : graph.Needed start) (taken : graph.input start index = .ok control)
    (run : Flow.jumpsInto graph start target placement (count + 1) index = .ok (jumps, after)) :
    ∃ jump ∈ jumps, jump.target = target ∧ after.find? control = some jump.source := by
  simp only [Flow.jumpsInto, taken, bind_eq_ok, of_faulty_eq_ok, pure_eq_ok, Except.ok.injEq] at run
  obtain ⟨_, rfl, ⟨source, middle⟩, found, op, _, ⟨further, final⟩, rest, same⟩ := run
  cases same
  obtain ⟨node, read, input⟩ := (graph.input_eq_ok _ _ _).mp taken
  have reached := graph.needed_input start control needed (graph.inputs_of_eq start node read ▸ mem_of_getElem? input)
  obtain ⟨_, middleGrounded, _, placed⟩ := control_block_grounded distinct grounded reached found
  obtain ⟨_, widest, _⟩ := jumps_into_grounded distinct middleGrounded needed rest
  exact ⟨_, mem_cons_self, rfl, widest control source placed⟩

theorem all_jumps_enter (needed : ∀ entry ∈ entries, graph.Needed entry.1)
    (run : Flow.allJumps graph entries placement = .ok (jumps, after)) (member : (start, target) ∈ entries)
    (taken : graph.controlInput start = .ok control) :
    ∃ jump ∈ jumps, jump.target = target ∧ after.find? control = some jump.source := by
  induction entries generalizing placement jumps with
  | nil => cases member
  | cons entry rest ih =>
    simp only [Flow.allJumps, bind_eq_ok, of_faulty_eq_ok, pure_eq_ok] at run
    obtain ⟨layout, shaped, ⟨own, middle⟩, here, ⟨further, final⟩, later, same⟩ := run
    cases same
    obtain ⟨first, others⟩ := forall_mem_cons.mp needed
    obtain ⟨middleGrounded, _, _⟩ := jumps_into_grounded distinct grounded first here
    rcases mem_cons.mp member with rfl | inside
    · obtain ⟨_, widest, _⟩ := all_jumps_grounded distinct middleGrounded others later
      simp only [Graph.controlInput, shaped, bind_eq_ok, Except.ok.injEq, add_zero] at taken
      obtain ⟨_, rfl, _, required, input⟩ := taken
      cases controls : layout.controls with
      | zero =>
        rw [controls] at required
        cases required
      | succ count =>
        rw [controls] at here
        obtain ⟨jump, listed, leads, placed⟩ :=
          jumps_into_enter distinct grounded first input here
        exact ⟨jump, mem_append_left further listed, leads, widest control jump.source placed⟩
    · obtain ⟨jump, listed, leads⟩ := ih middleGrounded others later inside
      exact ⟨jump, mem_append_right own listed, leads⟩

theorem all_exits_grounded {terminators : List NodeId} {exits : List (BlockId × NodeId)}
    (needed : ∀ id ∈ terminators, graph.Needed id) (run : Flow.allExits graph terminators placement = .ok (exits, after)) :
    Grounded graph ids after ∧ placement.Extends after ∧ exits.map Prod.snd = terminators ∧
      ∀ exit ∈ exits, after.find? exit.2 = some exit.1 := by
  induction terminators generalizing placement exits with
  | nil =>
    cases run
    exact ⟨grounded, fun _ _ found => found, rfl, by simp⟩
  | cons terminator rest ih =>
    simp only [Flow.allExits, bind_eq_ok, pure_eq_ok] at run
    obtain ⟨⟨block, middle⟩, found, ⟨further, final⟩, later, same⟩ := run
    cases same
    obtain ⟨_, middleGrounded, wider, placed⟩ := control_block_grounded distinct grounded
      (needed terminator mem_cons_self) found
    obtain ⟨finalGrounded, widest, all, others⟩ :=
      ih middleGrounded (fun id member => needed id (mem_cons_of_mem _ member)) later
    exact ⟨finalGrounded, extends_trans wider widest, congrArg (terminator :: ·) all,
      forall_mem_cons.mpr ⟨widest terminator block placed, others⟩⟩

omit grounded in
theorem start_grounded (needed : ∀ id ∈ ids, graph.Needed id) : Grounded graph ids (graph.startPlacement ids) := by
  have listed : ∀ id block, (graph.startPlacement ids).find? id = some block → id ∈ graph.blockStarts ids :=
    fun id block found => mem_of_getElem? (((start_placement_find graph distinct).2 id block).mp found)
  refine ⟨at_home_starts graph distinct, ?_, fun id block found => needed id (mem_filter.mp (listed id block found)).1⟩
  rintro id ⟨node, read, _, inner⟩
  refine Option.eq_none_iff_forall_ne_some.mpr fun block found => ?_
  have start := listed id block found
  rw [mem_block_starts read, inner] at start
  cases start.2

omit grounded in
theorem flow_of_graph_grounded (needed : ∀ id ∈ ids, graph.Needed id) {flow : Flow} (run : Flow.ofGraph graph ids = .ok (flow, placement)) :
    flow.starts = (graph.blockStarts ids).toArray ∧ Grounded graph ids placement ∧
      (∀ block id, flow.terminator? block = some id → placement.find? id = some block) ∧
      (∀ start control target, (graph.blockStarts ids)[target]? = some start → graph.controlInput start = .ok control →
        ∃ source, placement.find? control = some source ∧ target ∈ flow.successors source) ∧
      ∀ id ∈ graph.inputsOf Graph.stop, ∃ block, placement.find? id = some block := by
  have begun := start_grounded distinct needed
  simp only [Flow.ofGraph, bind_eq_ok, pure_eq_ok] at run
  obtain ⟨⟨jumps, middle⟩, jumped, ⟨exits, final⟩, left, same⟩ := run
  cases same
  have starts : ∀ entry ∈ (graph.blockStarts ids).zipIdx, graph.Needed entry.1 := fun entry member =>
    needed entry.1 (mem_filter.mp (mem_of_getElem? (mem_zipIdx_iff_getElem?.mp member))).1
  obtain ⟨middleGrounded, _, sources⟩ := all_jumps_grounded distinct begun starts jumped
  obtain ⟨finalGrounded, wider, all, ends⟩ := all_exits_grounded distinct middleGrounded
    (fun id input => graph.needed_input Graph.stop id (.inr .refl) input) left
  refine ⟨rfl, finalGrounded, ?_, ?_, ?_⟩
  · intro block id ended
    rw [Flow.terminator?, Option.or_eq_some_iff] at ended
    rcases ended with exited | ⟨_, jumped⟩
    · obtain ⟨⟨source, exit⟩, member, chosen⟩ := mem_filterMap.mp (mem_of_getLast? exited)
      split at chosen
      · rename_i same
        cases chosen
        exact same ▸ ends (source, exit) member
      · cases chosen
    · obtain ⟨jump, member, chosen⟩ := mem_filterMap.mp (mem_of_getLast? jumped)
      split at chosen
      · rename_i same
        obtain ⟨control, placed, only⟩ := sources jump member
        rw [only id chosen, ← same]
        exact wider control jump.source placed
      · cases chosen
  · intro start control target place taken
    obtain ⟨jump, member, leads, placed⟩ := all_jumps_enter distinct begun starts jumped
      (mem_zipIdx_iff_getElem?.mpr place) taken
    exact ⟨jump.source, wider control jump.source placed, (Flow.mem_successors _ _ _).mpr ⟨jump, member, rfl, leads⟩⟩
  · intro id input
    rw [← all] at input
    obtain ⟨exit, member, rfl⟩ := mem_map.mp input
    exact ⟨exit.1, ends exit member⟩

theorem place_fixed_grounded (needed : graph.Needed id)
    (fixed : Schedule.isFixed graph id = .ok true) (run : Schedule.placeFixed graph placement id = .ok after) :
    Grounded graph ids after ∧ placement.Extends after ∧ ∃ block, after.find? id = some block := by
  simp only [Schedule.isFixed, bind_eq_ok, of_faulty_eq_ok, pure_eq_ok, graph.op_eq_ok, checked_layout_eq_ok] at fixed
  obtain ⟨_, ⟨node, read, rfl⟩, _, ⟨_, rfl⟩, shape⟩ := fixed
  rw [Bool.and_eq_true, decide_eq_true_eq, Bool.not_eq_true'] at shape
  have pinned : ¬ graph.Floats id := by
    rintro ⟨other, again, free, _⟩
    rw [read] at again
    cases again
    omega
  have inner : id ∉ graph.blockStarts ids := by
    rw [mem_block_starts read, shape.2]
    simp
  simp only [Schedule.placeFixed, bind_eq_ok, of_faulty_eq_ok, graph.op_eq_ok] at run
  obtain ⟨_, ⟨again, reread, rfl⟩, rest⟩ := run
  rw [read] at reread
  cases reread
  -- Either way the node has the home of the node that the walk begins at.
  obtain ⟨origin, block, middle, found, same, reached, follows⟩ : ∃ origin block middle,
      placement.controlBlock graph origin = .ok (block, middle) ∧ middle.put id block = after ∧ graph.Needed origin ∧
        (Home graph (graph.blockStarts ids) origin block → Home graph (graph.blockStarts ids) id block) := by
    by_cases control : node.op.isControl
    · rw [if_pos control] at rest
      simp only [bind_eq_ok, pure_eq_ok] at rest
      obtain ⟨_, rfl, ⟨block, middle⟩, found, same⟩ := rest
      exact ⟨id, block, middle, found, same, needed, fun home => home⟩
    · rw [if_neg control] at rest
      simp only [bind_eq_ok, of_faulty_eq_ok, pure_eq_ok] at rest
      obtain ⟨origin, fetched, ⟨block, middle⟩, found, same⟩ := rest
      obtain ⟨_, reread, first, input⟩ := graph.control_input_head fetched
      rw [read] at reread
      cases reread
      exact ⟨origin, block, middle, found, same, graph.needed_input id origin needed input,
        .pass id origin node block inner read first⟩
  obtain ⟨home, middleGrounded, wider, _⟩ := control_block_grounded distinct grounded reached found
  obtain ⟨final, widest⟩ := grounded_put distinct middleGrounded (follows home) pinned needed
  rw [← same]
  refine ⟨final, extends_trans wider widest, block, ?_⟩
  rw [find_put, if_pos ⟨rfl, middleGrounded.sized ▸ graph.node_lt read⟩]

theorem place_all_fixed_grounded {pinned : List NodeId}
    (fixed : ∀ id ∈ pinned, graph.Needed id ∧ Schedule.isFixed graph id = .ok true)
    (run : pinned.foldlM (Schedule.placeFixed graph) placement = .ok after) :
    Grounded graph ids after ∧ placement.Extends after ∧ ∀ id ∈ pinned, ∃ block, after.find? id = some block := by
  induction pinned generalizing placement with
  | nil =>
    cases run
    exact ⟨grounded, fun _ _ found => found, by simp⟩
  | cons first rest ih =>
    rw [foldlM_cons, bind_eq_ok] at run
    obtain ⟨middle, step, later⟩ := run
    obtain ⟨needed, own⟩ := fixed first mem_cons_self
    obtain ⟨middleGrounded, wider, block, placed⟩ := place_fixed_grounded distinct grounded needed own step
    obtain ⟨final, widest, others⟩ := ih middleGrounded (fun id member => fixed id (mem_cons_of_mem first member)) later
    exact ⟨final, extends_trans wider widest, forall_mem_cons.mpr ⟨⟨block, widest first block placed⟩, others⟩⟩

end

namespace Schedule

section

variable {unvisited more : List NodeId} {placement : Placement} {rest : List (NodeId × List NodeId)} {graph : Graph}
  {blocks : Array Block} {entry : BlockId} (holds : Placement → Prop)
  (step : ∀ placement id block, holds placement → graph.Needed id → placement.find? id = none → deepestBlock graph blocks placement (graph.inputsOf id) entry = .ok block → holds (placement.put id block))

-- The nodes on the stack are entered once and have no block yet, so what is put never overwrites anything.
structure Afloat (graph : Graph) (unvisited : List NodeId) (placement : Placement) (stack : List (NodeId × List NodeId)) :
    Prop where
  fresh : unvisited.Nodup
  distinct : (stack.map Prod.fst).Nodup
  entered : ∀ id ∈ stack.map Prod.fst, placement.find? id = none ∧ id ∉ unvisited
  waiting : ∀ entry ∈ stack, graph.Needed entry.1 ∧ ∀ input ∈ entry.2, input ∈ graph.inputsOf entry.1

theorem afloat_begin (placement : Placement) (needed : graph.Needed id) (fresh : unvisited.Nodup)
    (bare : placement.find? id = none) : Afloat graph (unvisited.erase id) placement [(id, graph.inputsOf id)] := by
  refine ⟨fresh.erase id, nodup_singleton id, fun other inside => ?_, forall_mem_singleton.mpr ⟨needed, fun _ own => own⟩⟩
  rw [mem_singleton.mp inside]
  exact ⟨bare, fresh.not_mem_erase⟩

theorem afloat_leave (block : BlockId) (afloat : Afloat graph unvisited placement ((id, []) :: rest)) :
    Afloat graph unvisited (placement.put id block) rest := by
  obtain ⟨alone, distinct⟩ := nodup_cons.mp afloat.distinct
  refine ⟨afloat.fresh, distinct, fun other inside => ?_, fun entry inside => afloat.waiting entry (mem_cons_of_mem _ inside)⟩
  obtain ⟨bare, seen⟩ := afloat.entered other (mem_cons_of_mem id inside)
  refine ⟨?_, seen⟩
  rw [find_put, if_neg]
  · exact bare
  · rintro ⟨same, _⟩
    exact alone (same ▸ inside)

theorem afloat_drop {input : NodeId} (afloat : Afloat graph unvisited placement ((id, input :: more) :: rest)) :
    Afloat graph unvisited placement ((id, more) :: rest) := by
  obtain ⟨⟨needed, inputs⟩, others⟩ := forall_mem_cons.mp afloat.waiting
  exact ⟨afloat.fresh, afloat.distinct, afloat.entered, forall_mem_cons.mpr
    ⟨⟨needed, fun next inside => inputs next (mem_cons_of_mem input inside)⟩, others⟩⟩

theorem afloat_enter {input : NodeId} (bare : placement.find? input = none) (member : input ∈ unvisited)
    (afloat : Afloat graph unvisited placement ((id, input :: more) :: rest)) :
    Afloat graph (unvisited.erase input) placement ((input, graph.inputsOf input) :: (id, more) :: rest) := by
  obtain ⟨needed, inputs⟩ := afloat.waiting _ mem_cons_self
  refine ⟨afloat.fresh.erase input, nodup_cons.mpr ⟨?_, afloat.distinct⟩, fun other inside => ?_,
    forall_mem_cons.mpr ⟨⟨graph.needed_input id input needed (inputs input mem_cons_self), fun _ own => own⟩,
      (afloat_drop afloat).waiting⟩⟩
  · intro stacked
    exact (afloat.entered input stacked).2 member
  · rcases mem_cons.mp inside with same | deeper
    · exact same ▸ ⟨bare, afloat.fresh.not_mem_erase⟩
    · obtain ⟨unplaced, seen⟩ := afloat.entered other deeper
      exact ⟨unplaced, fun waiting => seen (mem_of_mem_erase waiting)⟩

include step in
theorem settle_keeps {left : List NodeId} {stack : List (NodeId × List NodeId)} (afloat : Afloat graph unvisited placement stack)
    (begins : holds placement) (run : settle graph blocks entry unvisited placement stack = .ok (left, after)) :
    left.Nodup ∧ holds after := by
  fun_induction settle graph blocks entry unvisited placement stack with
  | case1 unvisited placement =>
    cases run
    exact ⟨afloat.fresh, begins⟩
  | case2 unvisited placement id rest ih =>
    obtain ⟨block, found, later⟩ := bind_eq_ok.mp run
    have bare := (afloat.entered id mem_cons_self).1
    have needed := (afloat.waiting _ mem_cons_self).1
    exact ih block (afloat_leave block afloat) (step placement id block begins needed bare found) later
  | case3 unvisited placement id input more rest placed ih =>
    exact ih (afloat_drop afloat) begins run
  | case4 unvisited placement id input more rest bare member ih =>
    exact ih (afloat_enter (by simpa using bare) member afloat) begins run
  | case5 => cases run

include step in
theorem place_floating_keeps {pending : List NodeId} (fresh : unvisited.Nodup) (needed : ∀ id ∈ pending, graph.Needed id)
    (begins : holds placement) (run : placeFloating graph blocks entry pending unvisited placement = .ok after) :
    holds after := by
  induction pending generalizing unvisited placement with
  | nil =>
    cases run
    exact begins
  | cons id rest ih =>
    obtain ⟨here, later⟩ := forall_mem_cons.mp needed
    rw [placeFloating] at run
    split at run
    · exact ih fresh later begins run
    · rename_i bare
      rw [bind_eq_ok] at run
      obtain ⟨⟨left, middle⟩, settled, further⟩ := run
      have afloat := afloat_begin placement here fresh (by simpa using bare)
      obtain ⟨unvisited, held⟩ := settle_keeps holds step afloat begins settled
      exact ih unvisited later held further

end

namespace Stages

variable {graph : Graph} {schedule : Schedule} {ids : List NodeId} {flow : Flow} {initial fixed : Placement}
  (stages : Stages graph schedule ids flow initial fixed)

include stages

theorem ids_nodup : ids.Nodup := (graph.schedulable_exact stages.gathered).1

theorem mem_ids (id : NodeId) : id ∈ ids ↔ graph.Needed id ∧ id ≠ Graph.stop :=
  (graph.schedulable_exact stages.gathered).2.1 id

theorem ids_needed : ∀ id ∈ ids, graph.Needed id := fun id member => ((stages.mem_ids id).mp member).1

theorem flow_starts : flow.starts = (graph.blockStarts ids).toArray :=
  (flow_of_graph_grounded stages.ids_nodup stages.ids_needed stages.flowed).1

theorem fixed_grounded : Grounded graph ids fixed ∧ initial.Extends fixed ∧
    ∀ id ∈ ids, isFixed graph id = .ok true → ∃ block, fixed.find? id = some block := by
  obtain ⟨pinned, filtered, folded⟩ := stages.pinned
  obtain ⟨_, grounded, _⟩ := flow_of_graph_grounded stages.ids_nodup stages.ids_needed stages.flowed
  have chosen := mem_filter_m filtered
  obtain ⟨final, wider, placed⟩ := place_all_fixed_grounded stages.ids_nodup grounded
    (fun id member => ⟨stages.ids_needed id ((chosen id).mp member).1, ((chosen id).mp member).2⟩) folded
  exact ⟨final, wider, fun id member own => placed id ((chosen id).mpr ⟨member, own⟩)⟩

theorem placement_keeps (holds : Placement → Prop) (begins : holds fixed)
    (step : ∀ placement id block, holds placement → graph.Needed id → placement.find? id = none →
      deepestBlock graph (emptyBlocks flow schedule.order schedule.dominators) placement (graph.inputsOf id)
        schedule.entry = .ok block → holds (placement.put id block)) : holds schedule.placement :=
  place_floating_keeps holds step nodup_range stages.ids_needed begins stages.floated

theorem placed_needed : ∀ id block, schedule.placement.find? id = some block → graph.Needed id := by
  refine stages.placement_keeps (fun placement => ∀ id block, placement.find? id = some block → graph.Needed id)
    stages.fixed_grounded.1.needed ?_
  intro placement id block known needed _ _ other found read
  rw [find_put] at read
  split at read
  · rename_i same
    exact same.1 ▸ needed
  · exact known other found read

theorem placement_extends : fixed.Extends schedule.placement := by
  refine stages.placement_keeps fixed.Extends (fun _ _ found => found) ?_
  intro placement id block wider _ bare _
  exact extends_trans wider (placement.extends_put block bare)

theorem start_placed (block : BlockId) (starts : flow.starts[block]? = some start) :
    schedule.placement.find? start = some block ∧ start ∈ ids := by
  rw [stages.flow_starts, getElem?_toArray] at starts
  obtain ⟨grounded, _⟩ := stages.fixed_grounded
  exact ⟨stages.placement_extends start block (grounded.started block start starts),
    (mem_filter.mp (mem_of_getElem? starts)).1⟩

theorem terminator_placed (block : BlockId) (id : NodeId) (ended : flow.terminator? block = some id) :
    schedule.placement.find? id = some block ∧ graph.Needed id := by
  obtain ⟨_, wider, _⟩ := stages.fixed_grounded
  obtain ⟨_, _, ends, _⟩ := flow_of_graph_grounded stages.ids_nodup stages.ids_needed stages.flowed
  have placed := stages.placement_extends id block (wider id block (ends block id ended))
  exact ⟨placed, stages.placed_needed id block placed⟩

theorem control_leads {source : BlockId} (starts : flow.starts[target]? = some start)
    (taken : graph.controlInput start = .ok control) (placed : schedule.placement.find? control = some source) :
    target ∈ flow.successors source := by
  obtain ⟨_, wider, _⟩ := stages.fixed_grounded
  obtain ⟨_, _, _, enters, _⟩ := flow_of_graph_grounded stages.ids_nodup stages.ids_needed stages.flowed
  rw [stages.flow_starts, getElem?_toArray] at starts
  obtain ⟨found, there, leads⟩ := enters start control target starts taken
  rw [stages.placement_extends control found (wider control found there)] at placed
  cases placed
  exact leads

end Stages

end Schedule

theorem scheduled_check (graph : Graph) (test : Schedule → Bool)
    (checks : (match Schedule.ofGraph graph with | .ok schedule => test schedule | .error _ => false) = true) :
    ∃ schedule, Schedule.ofGraph graph = .ok schedule ∧ test schedule := by
  cases run : Schedule.ofGraph graph with
  | ok schedule =>
    rw [run] at checks
    exact ⟨schedule, rfl, checks⟩
  | error failure =>
    rw [run] at checks
    cases checks

end SeaOfNodes
