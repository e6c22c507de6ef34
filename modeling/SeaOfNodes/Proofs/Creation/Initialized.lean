import SeaOfNodes.Proofs.Creation.Path
import SeaOfNodes.Proofs.Doubles

/-! Every word of an object that is created inline is written once before its region ends, and nothing else is. -/

namespace SeaOfNodes

open List

namespace Graph

def allocated? (graph : Graph) (id : NodeId) : Option UInt32 :=
  match graph.op id, graph.input id 0 with
  | .ok (.allocate _), .ok bytes =>
    match graph.op bytes with
    | .ok (.constant (.int32 size)) => some size.toUInt32
    | _ => none
  | _, _ => none

def written? (graph : Graph) (id : NodeId) : Option (Nat × Nat) :=
  match graph.op id with
  | .ok (.storeField access) => some (access.offset.toNat, access.machineType.representation.bytes.toNat)
  | .ok (.storeElement access) =>
    match graph.input id 1 with
    | .ok place =>
      match graph.op place with
      | .ok (.constant (.number index)) =>
        some (access.header.toNat + 8 * index.toUInt32Clamped.toNat, access.machineType.representation.bytes.toNat)
      | _ => none
    | _ => none
  | _ => none

end Graph

section

variable {shaped : Prop} {graph : Graph} (generation : Generation) (object : NodeId)

theorem lands_written {store : Store} {id : NodeId} (wide : store.Wide) (lands : store.Lands True graph generation object id) :
    ∃ offset, store.offset? = some offset ∧ graph.written? id = some (offset, 8) := by
  cases store with
  | field access value =>
    refine ⟨_, rfl, ?_⟩
    rw [Graph.written?, lands.2]
    exact congrArg (fun bytes : UInt32 => some (_, bytes.toNat)) wide
  | element access index value =>
    obtain ⟨_, performs, counted⟩ := lands
    obtain ⟨place, edge, constant⟩ := counted trivial
    rw [Graph.Performs] at performs constant
    rw [Graph.Edge] at edge
    refine ⟨_, rfl, ?_⟩
    simp only [Graph.written?, performs, edge, constant, Double.clamped_of_uint32]
    exact congrArg (fun bytes : UInt32 => some (_, bytes.toNat)) wide
  | misplaced fault => exact lands.elim

theorem lands_into (stores : List Store) (ids : List NodeId)
    (lands : Forall₂ (fun store id => store.Lands True graph generation object id) stores ids) :
    ∀ id ∈ ids, graph.input id 0 = .ok object := by
  induction lands with
  | nil => simp
  | @cons store id stores ids first _ ih =>
    refine forall_mem_cons.mpr ⟨?_, ih⟩
    cases store with
    | field access value => exact first.1
    | element access index value => exact first.1
    | misplaced fault => exact first.elim

theorem lands_all_written (stores : List Store) (ids : List NodeId) (wide : ∀ store ∈ stores, store.Wide)
    (lands : Forall₂ (fun store id => store.Lands True graph generation object id) stores ids) :
    Store.Placed stores ∧ ids.map graph.written? = (Store.offsets stores).map fun offset => some (offset, 8) := by
  induction lands with
  | nil => exact ⟨by simp [Store.Placed], rfl⟩
  | @cons store id stores ids first _ ih =>
    obtain ⟨here, there⟩ := forall_mem_cons.mp wide
    obtain ⟨offset, placed, written⟩ := lands_written generation object here first
    obtain ⟨all, same⟩ := ih there
    refine ⟨forall_mem_cons.mpr ⟨by rw [placed]; rfl, all⟩, ?_⟩
    rw [map_cons, written, same, Store.offsets, Store.offsets, filterMap_cons_some placed]
    rfl

end

theorem creation_initializes_words (c : CreationContext) (s t : Workspace) (id : NodeId) (request : Creation) (outcome : Reduction)
    (interned : s.graph.Interned) (creates : s.graph.op id = .ok (.create request)) (other : request ≠ .object)
    (shaped : c.WellShaped s.graph id request) (run : c.reduce id s = .ok outcome t) (rewritten : outcome ≠ .unchanged)
    (object : NodeId) (generation : Generation) (added : s.graph.size ≤ object)
    (allocates : t.graph.op object = .ok (.allocate generation)) :
    ∃ size stores last ends, t.graph.allocated? object = some size ∧ t.graph.Follows object stores last ∧
      (∀ store ∈ stores, t.graph.input store 0 = .ok object) ∧
      t.graph.op ends = .ok .finishRegion ∧ t.graph.input ends 0 = .ok object ∧ t.graph.effectInput ends = .ok last ∧
      8 ∣ size.toNat ∧ ∃ offsets : List Nat, stores.map t.graph.written? = offsets.map (fun offset => some (offset, 8)) ∧
        offsets.Perm (Layout.words size.toNat) := by
  obtain ⟨plan, asked, creation, decided, _, created, same, executed⟩ := reduce_executes run rewritten
  cases Operator.create.inj (Except.ok.inj (creates.symm.trans ((s.graph.op_eq_ok id _).mpr ⟨creation, created, same⟩)))
  have tidy : plan.Tidy True s.graph id := c.decide_tidy creates (fun _ => ⟨other, shaped⟩) decided
  obtain ⟨_, checks, regions, _, done, _, objects⟩ :=
    @execute_builds True True s t (fun _ => interned) plan _ id outcome tidy request creation created same executed
  obtain ⟨built, listed, rfl⟩ := objects object generation added allocates
  obtain ⟨stands, _⟩ := done.regions built listed
  obtain ⟨map, rest, all, regular⟩ := stands.tidy.first
  have wide : ∀ store ∈ built.region.allStores, store.Wide := by
    rw [all]
    exact forall_mem_cons.mpr ⟨rfl, fun store member => store.regular_wide (regular store member)⟩
  obtain ⟨placed, written⟩ := lands_all_written _ _ _ _ wide stands.lands
  obtain ⟨whole, covers⟩ := stands.tidy.covers trivial placed
  obtain ⟨source, edge, constant⟩ := stands.bytes trivial
  refine ⟨built.region.size, built.nodes.stores, built.last, built.ends, ?_, stands.chain, lands_into _ _ _ _ stands.lands,
    stands.ends.1, stands.ends.2.1, stands.ends.2.2, whole, _, written, covers⟩
  rw [Graph.Performs] at constant
  rw [Graph.Edge] at edge
  simp only [Graph.allocated?, allocates, edge, constant, UInt32.toUInt32_toInt32]

section

theorem interned_check (graph : Graph) (checks : graph.constants.all (fun entry => (graph.node? entry.2).any fun node =>
      node.dead || node.op = .constant entry.1)) : graph.Interned := by
  intro value id listed
  have entry := all_eq_true.mp checks (value, id) (mem_of_lookup value id listed)
  rw [Option.any_eq_true] at entry
  obtain ⟨node, read, fine⟩ := entry
  refine ⟨graph.node_lt read, fun next live => ?_⟩
  cases read.symm.trans live.1
  rw [live.2, Bool.false_or, decide_eq_true_eq] at fine
  exact fine

def emptyLiteral : List Edit :=
  [.constant (.constant (.heap Root.undefined)), .addNode (.create .emptyLiteralObject) [2, 0, 0] none]

theorem empty_literal_initialized :
    ∃ t, CreationContext.initial.reduce 3 (.recording (.built emptyLiteral)) = .ok (.changed 3) t ∧
      ∃ size stores last ends, t.graph.allocated? 7 = some size ∧ t.graph.Follows 7 stores last ∧
        (∀ store ∈ stores, t.graph.input store 0 = .ok 7) ∧
        t.graph.op ends = .ok .finishRegion ∧ t.graph.input ends 0 = .ok 7 ∧ t.graph.effectInput ends = .ok last ∧
        8 ∣ size.toNat ∧ ∃ offsets : List Nat, stores.map t.graph.written? = offsets.map (fun offset => some (offset, 8)) ∧
          offsets.Perm (Layout.words size.toNat) := by
  obtain ⟨outcome, t, run, found⟩ := reduced_check .initial 3 (.recording (.built emptyLiteral))
    (fun outcome t => outcome = .changed 3 && (t.graph.op 7).toOption == some (.allocate .young)) (by decide +kernel)
  rw [Bool.and_eq_true, decide_eq_true_eq, beq_iff_eq] at found
  rw [found.1] at run
  have mapped : (CreationContext.initial.heap.map? NativeContext.objectLiteralMap).all
      (fun map => map.instanceType = .jsObject ∧ map.Fits 24) = true := by decide +kernel
  have shaped : CreationContext.initial.WellShaped (Graph.built emptyLiteral) 3 .emptyLiteralObject := by
    intro map known
    rw [known] at mapped
    exact of_decide_eq_true mapped
  exact ⟨t, run, creation_initializes_words .initial _ t 3 .emptyLiteralObject _ (interned_check _ (by decide +kernel))
    (by decide +kernel) nofun shaped run nofun 7 .young (by decide +kernel) (ok_of_to_option _ _ found.2)⟩

def overwrittenConstant : List Edit :=
  [.constant (.constant (.heap Root.undefined)), .int32Constant 40, .changeOp 3 (.constant (.int32 48)),
   .addNode (.create .iterResult) [2, 2, 2, 0, 0] none]

theorem overwritten_size_leaves_word :
    ∃ t, CreationContext.initial.reduce 4 (.recording (.built overwrittenConstant)) = .ok (.changed 4) t ∧
      (Graph.built overwrittenConstant).size ≤ 7 ∧ t.graph.op 7 = .ok (.allocate .young) ∧ t.graph.allocated? 7 = some 48 ∧
      40 ∈ Layout.words 48 ∧ ∀ store, t.graph.written? store ≠ some (40, 8) := by
  obtain ⟨outcome, t, run, found⟩ := reduced_check .initial 4 (.recording (.built overwrittenConstant))
    (fun outcome t => outcome = .changed 4 && (t.graph.op 7).toOption == some (.allocate .young) &&
      t.graph.allocated? 7 == some 48 && (range t.graph.size).all fun store => t.graph.written? store != some (40, 8))
    (by decide +kernel)
  simp only [Bool.and_eq_true, decide_eq_true_eq, beq_iff_eq] at found
  obtain ⟨⟨⟨rfl, allocates⟩, size⟩, unwritten⟩ := found
  refine ⟨t, run, by decide +kernel, ok_of_to_option _ _ allocates, size, by decide, fun store written => ?_⟩
  by_cases inside : store < t.graph.size
  · have here := all_eq_true.mp unwritten store (mem_range.mpr inside)
    rw [written] at here
    cases here
  rw [Graph.written?] at written
  cases carried : t.graph.op store with
  | error fault =>
    rw [carried] at written
    cases written
  | ok op =>
    obtain ⟨node, read, _⟩ := (t.graph.op_eq_ok store op).mp carried
    exact inside (t.graph.node_lt read)

end

end SeaOfNodes
