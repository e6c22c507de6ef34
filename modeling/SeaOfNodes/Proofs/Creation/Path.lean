import SeaOfNodes.Proofs.Creation.Executed
import SeaOfNodes.Proofs.Lowering.Accepted

/-! The path of effects through an inline creation: checks first, and then one region after the other. -/

namespace SeaOfNodes

open List

def Generation.Guards : Generation → WriteBarrier → Representation → Prop
  | .young, barrier, _ => barrier = .none
  | .old, barrier, representation => barrier = .none ↔ representation.canBeTaggedPointer = false

namespace Graph

def StoresMap (graph : Graph) (object id : NodeId) : Prop :=
  graph.input id 0 = .ok object ∧ ∃ access, graph.op id = .ok (.storeField access) ∧ access.offset = 0 ∧
    access.barrier = .map ∧ access.machineType.representation.canBeTaggedPointer = true

def StoresInto (graph : Graph) (generation : Generation) (object id : NodeId) : Prop :=
  graph.input id 0 = .ok object ∧ ∃ op barrier representation, graph.op id = .ok op ∧
    op.stored? = some (barrier, representation) ∧ generation.Guards barrier representation

def IsRegion (graph : Graph) (generation : Generation) (path : List NodeId) : Prop :=
  ∃ begins object first stores ends, path = [begins, object, first] ++ stores ++ [ends] ∧
    graph.op begins = .ok .beginRegion ∧ graph.op object = .ok (.allocate generation) ∧ graph.StoresMap object first ∧
    (∀ store ∈ stores, graph.StoresInto generation object store) ∧
    graph.op ends = .ok .finishRegion ∧ graph.input ends 0 = .ok object

end Graph

section

variable {trusted shaped : Prop} {graph : Graph}

theorem regular_guards (generation : Generation) {barrier : WriteBarrier} {representation : Representation} (plain : barrier ≠ .map)
    (exact : barrier = .none ↔ representation.canBeTaggedPointer = false) :
    generation.Guards (Allocation.barrier generation barrier) representation := by
  cases generation with
  | young =>
    cases barrier with
    | map => exact absurd rfl plain
    | _ => rfl
  | old =>
    cases barrier with
    | map => exact absurd rfl plain
    | _ => exact exact

theorem lands_guarded {generation : Generation} {object id : NodeId} {store : Store} (regular : store.Regular)
    (lands : store.Lands trusted graph generation object id) : graph.StoresInto generation object id := by
  cases store with
  | field access value =>
    exact ⟨lands.1, _, _, _, lands.2, rfl, regular_guards generation regular.2.1 regular.2.2⟩
  | element access index value =>
    exact ⟨lands.1, _, _, _, lands.2.1, rfl, regular_guards generation regular.2.1 regular.2.2⟩
  | misplaced fault => exact lands.elim

theorem stands_region (built : Built) (stands : built.Stands trusted graph shaped) :
    graph.IsRegion built.region.generation built.path := by
  obtain ⟨map, rest, all, regular⟩ := stands.tidy.first
  have lands := stands.lands
  rw [all] at lands
  obtain ⟨first, stores, here, later, same⟩ := forall₂_cons_left_iff.mp lands
  refine ⟨built.nodes.begins, built.nodes.object, first, stores, built.ends, ?_, stands.begins, stands.object, ?_, ?_, stands.ends.1,
    stands.ends.2.1⟩
  · rw [Built.path, RegionNodes.chain, same]
    rfl
  · exact ⟨here.1, _, here.2, rfl, rfl, rfl⟩
  · intro store member
    clear lands same all
    induction later with
    | nil => cases member
    | @cons planned id plans ids lands _ ih =>
      obtain ⟨fine, others⟩ := forall_mem_cons.mp regular
      rcases mem_cons.mp member with rfl | further
      · exact lands_guarded fine lands
      · exact ih others further

end

theorem creation_effect_path (c : CreationContext) (s t : Workspace) (id effect last : NodeId) (outcome : Reduction)
    (run : c.reduce id s = .ok outcome t) (rewritten : outcome = .changed last ∨ outcome = .replaced last)
    (before : s.graph.effectInput id = .ok effect) (unbypassed : s.graph.bypasses id effect = false)
    (apart : outcome = .replaced last → effect ≠ id) :
    ∃ checks regions generation, t.graph.Follows effect (checks ++ regions.flatten) last ∧
      (∀ check ∈ checks, ∃ op, t.graph.op check = .ok op ∧ op.checks = true) ∧ regions ≠ [] ∧
      ∀ region ∈ regions, t.graph.IsRegion generation region := by
  obtain ⟨plan, request, creation, _, tidy, created, asked, executed⟩ := reduce_executes run
    (by rcases rewritten with rfl | rfl <;> exact nofun)
  cases before.symm.trans tidy.effect
  obtain ⟨final, checks, regions, ended, done, follows, _⟩ :=
    @execute_builds False False s t False.elim plan _ id outcome tidy request creation created asked executed
  have same : final = last := by
    rcases rewritten with rfl | rfl <;> rcases ended with same | same <;> cases same <;> rfl
  subst same
  refine ⟨checks, regions.map Built.path, plan.last.generation, follows unbypassed apart, done.checks, ?_, ?_⟩
  · simpa using done.some
  · refine forall_mem_map.mpr fun built listed => ?_
    obtain ⟨stands, generation⟩ := done.regions built listed
    exact generation ▸ stands_region built stands

section

theorem reduced_check (c : CreationContext) (id : NodeId) (s : Workspace) (test : Reduction → Workspace → Bool)
    (checks : (match c.reduce id s with | .ok outcome t => test outcome t | .error .. => false) = true) :
    ∃ outcome t, c.reduce id s = .ok outcome t ∧ test outcome t := by
  cases run : c.reduce id s with
  | ok outcome t =>
    rw [run] at checks
    exact ⟨outcome, t, rfl, checks⟩
  | error fault t =>
    rw [run] at checks
    cases checks

def CreationContext.pretenuring : CreationContext :=
  { heap := (Snapshot.initial.add (.allocationSite ⟨none, .packedSmi, .old, true⟩)).2, config := {} }

def pairOfSmis : List Edit :=
  [.constant (.constant (.heap Root.undefined)), .addNode (.create (.array 2 (some ⟨32⟩))) [2, 2, 2, 2, 2, 2, 0, 0] none]

theorem pair_of_smis_path : ∃ t, CreationContext.pretenuring.reduce 3 (.recording (.built pairOfSmis)) = .ok (.changed 3) t ∧
      ∃ checks regions generation, t.graph.Follows 0 (checks ++ regions.flatten) 3 ∧
        (∀ check ∈ checks, ∃ op, t.graph.op check = .ok op ∧ op.checks = true) ∧ regions ≠ [] ∧
        ∀ region ∈ regions, t.graph.IsRegion generation region := by
  obtain ⟨outcome, t, run, same⟩ := reduced_check .pretenuring 3 (.recording (.built pairOfSmis))
    (fun outcome _ => outcome = .changed 3) (by decide +kernel)
  rw [of_decide_eq_true same] at run
  exact ⟨t, run, creation_effect_path _ _ t 3 0 3 _ run (.inl rfl) (by decide +kernel) (by decide +kernel) nofun⟩

theorem unfollowed (graph : Graph) (effect last : NodeId) (apart : effect ≠ last)
    (unused : (range graph.size).all (fun user => (graph.effectInput user).toOption != some effect)) :
    ¬ ∃ path, graph.Follows effect path last := by
  rintro ⟨path, follows⟩
  cases path with
  | nil => exact apart follows
  | cons user rest =>
    obtain ⟨layout, laid, _⟩ := bind_eq_ok.mp follows.1
    obtain ⟨op, carried, _⟩ := bind_eq_ok.mp laid
    obtain ⟨node, read, _⟩ := (graph.op_eq_ok user op).mp carried
    have here := all_eq_true.mp unused user (mem_range.mpr (graph.node_lt read))
    rw [follows.1] at here
    simp [Except.toOption] at here

def CreationContext.withRegExp : CreationContext :=
  let regExp : RegExpObject :=
    ⟨Root.undefined, Root.emptyFixedArray, Root.emptyFixedArray, Root.undefined, ⟨32⟩, .small 0, .small 0⟩
  { heap := (((Snapshot.initial.add (.string "a")).2.add (.jsRegExp regExp)).2.add (.feedbackVector [some ⟨33⟩])).2,
    config := {}, feedbackVector := some ⟨34⟩ }

def ownEffect : List Edit :=
  [.constant (.constant (.heap Root.undefined)), .int32Constant 0,
   .addNode (.create (.literalRegExp ⟨⟨32⟩, 0, 0, 0⟩)) [2, 2, 2, 0, 0] none, .replaceInput 4 3 4,
   .addNode (.control (.ret 1)) [3, 4, 4, 4] none, .mergeToEnd 5]

def successEffect : List Edit :=
  [.constant (.constant (.heap Root.undefined)), .int32Constant 0, .addNode (.create .iterResult) [2, 2, 2, 0, 0] none,
   .addNode (.control .ifSuccess) [4] none, .replaceInput 4 3 5, .addNode (.control (.ret 1)) [3, 4, 4, 5] none, .mergeToEnd 6]

theorem moved_effect_breaks_path :
    ((Graph.built ownEffect).verify.toOption.isSome ∧ (Graph.built ownEffect).effectInput 4 = .ok 4 ∧
      (Graph.built ownEffect).bypasses 4 4 = false ∧
      ∃ last t, CreationContext.withRegExp.reduce 4 (.recording (.built ownEffect)) = .ok (.replaced last) t ∧
        ¬ ∃ path, t.graph.Follows 4 path last) ∧
    (Graph.built successEffect).verify.toOption.isSome ∧ (Graph.built successEffect).effectInput 4 = .ok 5 ∧
      ∃ t, CreationContext.initial.reduce 4 (.recording (.built successEffect)) = .ok (.changed 4) t ∧
        ¬ ∃ path, t.graph.Follows 5 path 4 := by
  refine ⟨⟨by decide +kernel, by decide +kernel, by decide +kernel, ?_⟩, by decide +kernel, by decide +kernel, ?_⟩
  · obtain ⟨outcome, t, run, found⟩ := reduced_check .withRegExp 4 (.recording (.built ownEffect))
      (fun outcome t => outcome = .replaced 19 && (range t.graph.size).all fun user => (t.graph.effectInput user).toOption != some 4)
      (by decide +kernel)
    rw [Bool.and_eq_true, decide_eq_true_eq] at found
    exact ⟨19, t, found.1 ▸ run, unfollowed t.graph 4 19 (by decide) found.2⟩
  · obtain ⟨outcome, t, run, found⟩ := reduced_check .initial 4 (.recording (.built successEffect))
      (fun outcome t => outcome = .changed 4 && (range t.graph.size).all fun user => (t.graph.effectInput user).toOption != some 5)
      (by decide +kernel)
    rw [Bool.and_eq_true, decide_eq_true_eq] at found
    exact ⟨t, found.1 ▸ run, unfollowed t.graph 5 4 (by decide) found.2⟩

end

end SeaOfNodes
