import SeaOfNodes.Proofs.Creation.Drafts
import SeaOfNodes.Proofs.Graph.Rewired

/-! The regions that an inline creation leaves in the graph, along the path of effects. -/

namespace SeaOfNodes

open List SeaOfNodes.Graph

variable {op : Operator} {region : Region} {nodes : RegionNodes} {after : Plan.Progress} {ends : NodeId} {user : NodeId}

def Operator.stored? : Operator → Option (WriteBarrier × Representation)
  | .storeField access | .storeElement access => some (access.barrier, access.machineType.representation)
  | _ => none

def Operator.stays : Operator → Bool
  | .create _ | .call _ | .control .ifSuccess | .control .ifException => false
  | _ => true

namespace Operator

theorem checks_shape (op : Operator) (checks : op.checks) :
    op.stays ∧ op.fits ∧ 0 < op.layout.effects ∧ 0 < op.outputs.effects ∧ op.layout.firstEffect = op.layout.values := by
  cases op with
  | checkSmi => decide
  | checkNumber => decide
  | newArgumentsElements => decide
  | _ => cases checks

theorem computes_shape (op : Operator) (computes : op.computes) : op.stays ∧ ¬ 0 < op.outputs.effects := by
  cases op with
  | silenceNaN => decide
  | argumentsFrame => decide
  | argumentsLength skipped rest => exact ⟨rfl, lt_irrefl 0⟩
  | _ => cases computes

theorem store_stays (op : Operator) (stores : op.stored?.isSome) : op.stays := by
  cases op with
  | storeField access => rfl
  | storeElement access => rfl
  | _ => cases stores

end Operator

-- An edge to a node that keeps its target: the node is no projection that goes, and not the creation unless that stays.
def Safe (old : Graph) (id effect input : NodeId) : Prop := old.bypasses id input = false ∧ (input = id → effect = id)

namespace Graph

variable {node : Node}

def Performs (graph : Graph) (id : NodeId) (op : Operator) : Prop := graph.op id = .ok op

def Edge (graph : Graph) (id : NodeId) (index : Nat) (input : NodeId) : Prop := graph.input id index = .ok input

section

variable (graph : Graph) (id : NodeId)

theorem performs_iff : graph.Performs id op ↔ ∃ node, graph.node? id = some node ∧ node.op = op :=
  graph.op_eq_ok id op

theorem edge_iff {index : Nat} {input : NodeId} :
    graph.Edge id index input ↔ ∃ node, graph.node? id = some node ∧ node.inputs[index]? = some input :=
  graph.input_eq_ok id index input

theorem has_performs {inputs : List NodeId} (has : graph.Has id op inputs) : graph.Performs id op := by
  obtain ⟨node, live, same, _⟩ := has
  exact (graph.performs_iff id).mpr ⟨node, live.1, same⟩

theorem denotes_performs {value : Constant} (denotes : graph.Denotes id value) : graph.Performs id (.constant value) := by
  obtain ⟨node, live, same⟩ := denotes
  exact (graph.performs_iff id).mpr ⟨node, live.1, same⟩

theorem performs_unique {other : Operator} (first : graph.Performs id op) (second : graph.Performs id other) : op = other :=
  Except.ok.inj (first.symm.trans second)

theorem effect_input_eq (effect : NodeId) (read : graph.node? id = some node) (fits : node.op.fits)
    (some : 0 < node.op.layout.effects) (edge : node.inputs[node.op.layout.firstEffect]? = .some effect) :
    graph.effectInput id = .ok effect := by
  refine bind_eq_ok.mpr ⟨node.op.layout, ?_, bind_eq_ok.mpr ⟨(), ?_, ?_⟩⟩
  · exact bind_eq_ok.mpr ⟨node.op, (graph.op_eq_ok id node.op).mpr ⟨node, read, rfl⟩,
      (checked_layout_eq_ok _ _).mpr ⟨fits, rfl⟩⟩
  · exact (require_eq_ok _).mpr (by simpa using some)
  · exact (graph.edge_iff id).mpr ⟨node, read, edge⟩

end

def Follows (graph : Graph) : NodeId → List NodeId → NodeId → Prop
  | effect, [], last => effect = last
  | effect, id :: rest, last => graph.effectInput id = .ok effect ∧ graph.Follows id rest last

theorem follows_append (graph : Graph) (first second : List NodeId) (effect middle last : NodeId)
    (begins : graph.Follows effect first middle) (goes : graph.Follows middle second last) :
    graph.Follows effect (first ++ second) last := by
  induction first generalizing effect with
  | nil => exact begins ▸ goes
  | cons id rest ih => exact ⟨begins.1, ih id begins.2⟩

-- What is left of a graph when a creation has become or given way to its object: nodes keep their operators.
structure Settled (old : Graph) (id effect : NodeId) (new : Graph) : Prop where
  size : new.size = old.size
  kept : ∀ user node, old.node? user = some node → user ≠ id → node.op ≠ .control .ifSuccess →
    ∃ next, new.node? user = some next ∧ next.op = node.op ∧
      ∀ (index : Nat) input, node.inputs[index]? = some input → Safe old id effect input →
        (input = id → node.op.layout.edgeKind index ≠ .control) → next.inputs[index]? = some input

theorem edge_kind_first_effect {layout : InputLayout} (some : 0 < layout.effects) : layout.edgeKind layout.firstEffect = .effect := by
  obtain ⟨values, context, frameState, effects, controls⟩ := layout
  have some : 0 < effects := some
  cases context <;> cases frameState <;>
    simp [InputLayout.edgeKind, InputLayout.firstControl, InputLayout.firstEffect, InputLayout.frameStateIndex,
      InputLayout.contextIndex, some, add_assoc]

theorem rewired_settled (old : Graph) {id effect : NodeId} {new : Graph} (rewired : Rewired old id effect effect new) :
    Settled old id effect new where
  size := rewired.size
  kept user node read _ plain := by
    obtain ⟨next, there, op, _, edges⟩ := rewired.kept user node read plain
    refine ⟨next, there, op, fun index input edge safe forward => ?_⟩
    rcases edges index input edge safe.1 with kept | ⟨rfl, control, moved⟩
    · exact kept
    · have target : (node.op.layout.edgeKind index).target effect effect control = effect := by
        cases kind : node.op.layout.edgeKind index with
        | control => exact absurd kind (forward rfl)
        | _ => rfl
      rw [moved, target, safe.2 rfl]

theorem settled_refl (graph : Graph) (id : NodeId) : Settled graph id id graph :=
  graph.rewired_settled (graph.rewired_refl id id id)

theorem settled_elsewhere {old middle new : Graph} {id effect : NodeId} (settled : Settled old id effect middle)
    (size : new.size = middle.size)
    (same : ∀ user, user ≠ id → ∀ node, middle.node? user = some node → ∃ type, new.node? user = some { node with type := type }) :
    Settled old id effect new where
  size := size.trans settled.size
  kept user node read apart plain := by
    obtain ⟨next, there, op, edges⟩ := settled.kept user node read apart plain
    obtain ⟨type, again⟩ := same user apart next there
    exact ⟨_, again, op, edges⟩

section

variable {old new : Graph} {id effect : NodeId} (settled : Settled old id effect new) (request : Creation) (creation : Node)
  (created : old.node? id = some creation) (asked : creation.op = .create request)

include created asked

theorem stays_apart {user : NodeId} (performs : old.Performs user op) (stays : op.stays) :
    user ≠ id ∧ old.bypasses id user = false := by
  obtain ⟨node, read, rfl⟩ := (old.performs_iff user).mp performs
  refine ⟨?_, Bool.eq_false_iff.mpr fun bypassed => ?_⟩
  · rintro rfl
    cases read.symm.trans created
    rw [asked] at stays
    cases stays
  · obtain ⟨other, again, projects, _⟩ := (bypasses_iff old id user).mp bypassed
    cases read.symm.trans again.1
    rw [projects] at stays
    cases stays

theorem safe_of_performs (user : NodeId) (op : Operator) (performs : old.Performs user op) (stays : op.stays) :
    Safe old id effect user := by
  obtain ⟨apart, unbypassed⟩ := stays_apart request creation created asked performs stays
  exact ⟨unbypassed, fun same => absurd same apart⟩

include settled

theorem settled_node (read : old.node? user = some node) (stays : node.op.stays) :
    ∃ next, new.node? user = some next ∧ next.op = node.op ∧
      ∀ (index : Nat) input, node.inputs[index]? = some input → Safe old id effect input →
        (input = id → node.op.layout.edgeKind index ≠ .control) → next.inputs[index]? = some input := by
  refine settled.kept user node read ?_ fun projects => ?_
  · exact (stays_apart request creation created asked ((old.performs_iff user).mpr ⟨node, read, rfl⟩) stays).1
  · rw [projects] at stays
    cases stays

theorem settled_performs (user : NodeId) (op : Operator) (performs : old.Performs user op) (stays : op.stays) :
    new.Performs user op := by
  obtain ⟨node, read, rfl⟩ := (old.performs_iff user).mp performs
  obtain ⟨next, there, same, _⟩ := settled_node settled request creation created asked read stays
  exact (new.performs_iff user).mpr ⟨next, there, same⟩

theorem settled_edge (user : NodeId) (op : Operator) (inputs : List NodeId) (has : old.Has user op inputs) (stays : op.stays)
    (index : Nat) (value : op.layout.edgeKind index = .value) (input : NodeId) (edge : inputs[index]? = some input)
    (safe : Safe old id effect input) : new.Edge user index input := by
  obtain ⟨node, live, rfl, rfl, _⟩ := has
  obtain ⟨next, there, _, edges⟩ := settled_node settled request creation created asked live.1 stays
  refine (new.edge_iff user).mpr ⟨next, there, edges index input edge safe fun _ => ?_⟩
  rw [value]
  decide

theorem settled_effect (user : NodeId) (op : Operator) (inputs : List NodeId) (has : old.Has user op inputs) (stays : op.stays)
    (fits : op.fits) (some : 0 < op.layout.effects) (input : NodeId) (edge : inputs[op.layout.firstEffect]? = .some input)
    (safe : Safe old id effect input) : new.effectInput user = .ok input := by
  obtain ⟨node, live, rfl, rfl, _⟩ := has
  obtain ⟨next, there, same, edges⟩ := settled_node settled request creation created asked live.1 stays
  refine new.effect_input_eq user input there (same ▸ fits) (same ▸ some) ?_
  rw [same]
  refine edges _ input edge safe fun _ => ?_
  rw [edge_kind_first_effect some]
  decide

end

end Graph

/-! A region as it stands in the end. -/

section

variable (trusted : Prop) (graph : Graph)

def Store.Lands (generation : Generation) (object id : NodeId) : Store → Prop
  | .field access _ => graph.Edge id 0 object ∧
      graph.Performs id (.storeField { access with barrier := Allocation.barrier generation access.barrier })
  | .element access index _ => graph.Edge id 0 object ∧
      graph.Performs id (.storeElement { access with barrier := Allocation.barrier generation access.barrier }) ∧
      (trusted → ∃ place, graph.Edge id 1 place ∧ graph.Performs place (.constant (.number (.ofUInt32 index))))
  | .misplaced _ => False

structure Built where
  region : Region
  nodes : RegionNodes
  last : NodeId
  ends : NodeId

def Built.path (built : Built) : List NodeId := built.nodes.chain ++ [built.ends]

structure Built.Stands (shaped : Prop) (built : Built) : Prop where
  tidy : built.region.Tidy shaped
  begins : graph.Performs built.nodes.begins .beginRegion
  bytes : trusted → ∃ source, graph.Edge built.nodes.object 0 source ∧
    graph.Performs source (.constant (.int32 built.region.size.toInt32))
  object : graph.Performs built.nodes.object (.allocate built.region.generation)
  lands : List.Forall₂ (fun store id => store.Lands trusted graph built.region.generation built.nodes.object id)
    built.region.allStores built.nodes.stores
  chain : graph.Follows built.nodes.object built.nodes.stores built.last
  ends : graph.Performs built.ends .finishRegion ∧ graph.Edge built.ends 0 built.nodes.object ∧
    graph.effectInput built.ends = .ok built.last

end

section

variable {generation : Generation} {object before last : NodeId} {stores : List Store} {ids : List NodeId} {actions : List Action}
  {mades : List (List NodeId)} {trusted shaped : Prop} {old new : Graph} {id effect : NodeId}
  (settled : Settled old id effect new) (request : Creation) (creation : Node) (created : old.node? id = some creation)
  (asked : creation.op = .create request) {results : Array NodeId} {control : NodeId}

include settled created asked

theorem store_lands {store : Store} (allocates : old.Performs object (.allocate generation))
    (done : store.At trusted old results control generation object before user) :
    store.Lands trusted new generation object user ∧ Safe old id effect user ∧
      (Safe old id effect before → new.effectInput user = .ok before) := by
  have edge := settled_edge settled request creation created asked user
  have carry := settled_performs settled request creation created asked user
  have lead := settled_effect settled request creation created asked user
  have safe := fun user op => @safe_of_performs old id effect request creation created asked user op
  have into := safe object _ allocates rfl
  cases store with
  | field access value =>
    obtain ⟨source, _, has⟩ := done
    have performs := old.has_performs _ has
    exact ⟨⟨edge _ _ has rfl 0 rfl object rfl into, carry _ performs rfl⟩, safe user _ performs rfl,
      lead _ _ has rfl rfl one_pos before rfl⟩
  | element access index value =>
    obtain ⟨place, source, counts, _, has⟩ := done
    have performs := old.has_performs _ has
    refine ⟨⟨edge _ _ has rfl 0 rfl object rfl into, carry _ performs rfl, fun holds => ?_⟩, safe user _ performs rfl,
      lead _ _ has rfl rfl one_pos before rfl⟩
    have counted := old.denotes_performs place (counts.2 holds)
    exact ⟨place, edge _ _ has rfl 1 rfl place rfl (safe place _ counted rfl),
      settled_performs settled request creation created asked place _ counted rfl⟩
  | misplaced fault => exact done.elim

theorem stores_land (allocates : old.Performs object (.allocate generation)) (begins : Safe old id effect before)
    (done : StoresAt trusted old results control generation object before stores ids last) :
    Forall₂ (fun store user => store.Lands trusted new generation object user) stores ids ∧
      new.Follows before ids last ∧ Safe old id effect last := by
  induction stores generalizing before ids with
  | nil =>
    cases ids with
    | nil => exact ⟨.nil, done, done ▸ begins⟩
    | cons user rest => exact done.elim
  | cons store rest ih =>
    cases ids with
    | nil => exact done.elim
    | cons user ids =>
      obtain ⟨lands, safe, leads⟩ := store_lands settled request creation created asked allocates done.1
      obtain ⟨further, follows, ends⟩ := ih safe done.2
      exact ⟨.cons lands further, ⟨leads begins, follows⟩, ends⟩

-- All but the effect before it is inside the region.
theorem region_lands {before last : NodeId} (done : region.At trusted old results control before nodes last) :
    new.Performs nodes.begins .beginRegion ∧ new.Performs nodes.object (.allocate region.generation) ∧
      (trusted → ∃ source, new.Edge nodes.object 0 source ∧ new.Performs source (.constant (.int32 region.size.toInt32))) ∧
      Forall₂ (fun store user => store.Lands trusted new region.generation nodes.object user) region.allStores nodes.stores ∧
      new.Follows nodes.object nodes.stores last ∧ Safe old id effect last ∧
      (Safe old id effect before → new.Follows before nodes.chain last) := by
  have begins := old.has_performs _ done.begins
  have allocates := old.has_performs _ done.object
  have safe := fun user op => @safe_of_performs old id effect request creation created asked user op
  obtain ⟨lands, follows, ends⟩ := stores_land settled request creation created asked allocates (safe _ _ allocates rfl) done.stores
  have sized := fun holds => old.denotes_performs nodes.bytes (done.bytes.2 holds)
  refine ⟨?_, ?_, fun holds => ⟨nodes.bytes, ?_, ?_⟩, lands, follows, ends, fun fine => ⟨?_, ?_, follows⟩⟩
  · exact settled_performs settled request creation created asked _ _ begins rfl
  · exact settled_performs settled request creation created asked _ _ allocates rfl
  · exact settled_edge settled request creation created asked _ _ _ done.object rfl 0 rfl nodes.bytes rfl
      (safe _ _ (sized holds) rfl)
  · exact settled_performs settled request creation created asked _ _ (sized holds) rfl
  · exact settled_effect settled request creation created asked _ _ _ done.begins rfl rfl one_pos before rfl fine
  · exact settled_effect settled request creation created asked _ _ _ done.object rfl rfl one_pos nodes.begins rfl
      (safe _ _ begins rfl)

theorem prepared_path {before : Plan.Progress} (prepares : ∀ action ∈ actions, action.Prepares)
    (done : ActionsAt trusted old control before actions mades after) :
    ∃ checks, (Safe old id effect before.effect → new.Follows before.effect checks after.effect ∧ Safe old id effect after.effect) ∧
      (∀ check ∈ checks, ∃ op, new.Performs check op ∧ op.checks) ∧
      ∀ user ∈ mades.flatten, ∃ op, new.Performs user op ∧ (op.checks ∨ op.computes) := by
  induction actions generalizing mades before with
  | nil =>
    cases mades with
    | nil =>
      cases done
      exact ⟨[], fun safe => ⟨rfl, safe⟩, by simp, by simp⟩
    | cons made more => exact done.elim
  | cons action rest ih =>
    cases mades with
    | nil => exact done.elim
    | cons made more =>
      obtain ⟨middle, first, later⟩ := done
      obtain ⟨here, there⟩ := forall_mem_cons.mp prepares
      obtain ⟨checks, follows, all, kinds⟩ := ih there later
      cases action with
      | constant value =>
        obtain ⟨_, rfl, rfl, _⟩ := first
        exact ⟨checks, follows, all, kinds⟩
      | region built => exact here.elim
      | node op values type =>
        obtain ⟨user, sources, rfl, rfl, stand, has⟩ := first
        obtain ⟨counted, sort⟩ := here
        have performs := old.has_performs _ has
        have carry := settled_performs settled request creation created asked user op performs
        rw [flatten_cons]
        rcases sort with checking | computing
        · obtain ⟨stays, fits, effects, outputs, position⟩ := op.checks_shape checking
          have place : (sources ++ (if 0 < op.layout.effects then [before.effect] else []) ++
              if 0 < op.layout.controls then [control] else [])[op.layout.firstEffect]? = some before.effect := by
            rw [if_pos effects, position, ← counted, stand.length_eq]
            simp
          rw [if_pos outputs] at follows
          refine ⟨user :: checks, fun safe => ?_, forall_mem_cons.mpr ⟨⟨op, carry stays, checking⟩, all⟩, ?_⟩
          · obtain ⟨goes, ends⟩ := follows (safe_of_performs request creation created asked user op performs stays)
            exact ⟨⟨settled_effect settled request creation created asked user op _ has stays fits effects before.effect
              place safe, goes⟩, ends⟩
          · exact forall_mem_append.mpr ⟨forall_mem_singleton.mpr ⟨op, carry stays, .inl checking⟩, kinds⟩
        · obtain ⟨stays, outputs⟩ := op.computes_shape computing
          rw [if_neg outputs] at follows
          exact ⟨checks, follows, all,
            forall_mem_append.mpr ⟨forall_mem_singleton.mpr ⟨op, carry stays, .inr computing⟩, kinds⟩⟩

-- A region is closed by a node of its own, or by the creation that it takes the place of.
theorem region_stands (tidy : region.Tidy shaped) (done : region.At trusted old results control before nodes last)
    (closes : new.Performs ends .finishRegion ∧ new.Edge ends 0 nodes.object ∧ new.effectInput ends = .ok last) :
    Built.Stands trusted new shaped ⟨region, nodes, last, ends⟩ ∧
      (Safe old id effect before → new.Follows before (Built.path ⟨region, nodes, last, ends⟩) ends) := by
  obtain ⟨begins, object, bytes, lands, chain, _, follows⟩ :=
    region_lands settled request creation created asked done
  refine ⟨⟨tidy, begins, bytes, object, lands, chain, closes⟩, fun safe => ?_⟩
  exact new.follows_append _ _ before last ends (follows safe) ⟨closes.2.2, rfl⟩

theorem region_closes {before last : NodeId}
    (done : region.At trusted old results control before nodes last) (has : old.Has ends .finishRegion [nodes.object, last]) :
    new.Performs ends .finishRegion ∧ new.Edge ends 0 nodes.object ∧ new.effectInput ends = .ok last := by
  obtain ⟨_, _, _, _, _, safe, _⟩ := region_lands settled request creation created asked done
  refine ⟨?_, ?_, ?_⟩
  · exact settled_performs settled request creation created asked ends _ (old.has_performs _ has) rfl
  · exact settled_edge settled request creation created asked ends _ _ has rfl 0 rfl nodes.object rfl
      (safe_of_performs request creation created asked _ _ (old.has_performs _ done.object) rfl)
  · exact settled_effect settled request creation created asked ends _ _ has rfl rfl one_pos last rfl safe

omit settled created asked in
theorem lands_performs (lands : Forall₂ (fun store user => store.Lands trusted new generation object user) stores ids) :
    ∀ user ∈ ids, ∃ op, new.Performs user op ∧ op.stored?.isSome := by
  induction lands with
  | nil => simp
  | @cons store user stores ids first _ ih =>
    refine forall_mem_cons.mpr ⟨?_, ih⟩
    cases store with
    | field access value => exact ⟨_, first.2, rfl⟩
    | element access index value => exact ⟨_, first.2.1, rfl⟩
    | misplaced fault => exact first.elim

-- Only one node of a region allocates.
omit settled created asked in
theorem stands_sorts {built : Built} (stands : built.Stands trusted new shaped) (member : user ∈ built.path) :
    ∃ op, new.Performs user op ∧ op.stays ∧ ∀ generation, op = .allocate generation → user = built.nodes.object := by
  simp only [Built.path, RegionNodes.chain, cons_append, mem_cons, mem_append, not_mem_nil, or_false] at member
  rcases member with rfl | same | stored | rfl
  · exact ⟨_, stands.begins, rfl, nofun⟩
  · exact ⟨_, same ▸ stands.object, rfl, fun _ _ => same⟩
  · obtain ⟨op, performs, stores⟩ := lands_performs stands.lands user stored
    refine ⟨op, performs, op.store_stays stores, ?_⟩
    rintro generation rfl
    cases stores
  · exact ⟨_, stands.ends.1, rfl, nofun⟩

theorem built_path {before : Plan.Progress} (builds : ∀ action ∈ actions, action.Builds shaped generation)
    (done : ActionsAt trusted old control before actions mades after) :
    ∃ regions : List Built, (Safe old id effect before.effect →
        new.Follows before.effect (regions.map Built.path).flatten after.effect ∧ Safe old id effect after.effect) ∧
      (∀ built ∈ regions, built.Stands trusted new shaped ∧ built.region.generation = generation) ∧
      (∀ built ∈ regions, .region built.region ∈ actions) ∧ mades.flatten = (regions.map Built.path).flatten := by
  induction actions generalizing mades before with
  | nil =>
    cases mades with
    | nil =>
      cases done
      exact ⟨[], fun safe => ⟨rfl, safe⟩, by simp, by simp, rfl⟩
    | cons made more => exact done.elim
  | cons action rest ih =>
    cases mades with
    | nil => exact done.elim
    | cons made more =>
      obtain ⟨middle, first, later⟩ := done
      obtain ⟨here, there⟩ := forall_mem_cons.mp builds
      obtain ⟨regions, follows, all, planned, same⟩ := ih there later
      have planned := fun built member => mem_cons_of_mem action (planned built member)
      cases action with
      | constant value =>
        obtain ⟨_, rfl, rfl, _⟩ := first
        exact ⟨regions, follows, all, planned, same⟩
      | node op values type => exact here.elim
      | region region =>
        obtain ⟨nodes, last, ends, rfl, rfl, laid, has⟩ := first
        have closes := region_closes settled request creation created asked laid has
        obtain ⟨stands, path⟩ := region_stands settled request creation created asked here.1 laid closes
        refine ⟨⟨region, nodes, last, ends⟩ :: regions, fun safe => ?_, forall_mem_cons.mpr ⟨⟨stands, here.2⟩, all⟩,
          forall_mem_cons.mpr ⟨mem_cons_self, planned⟩, ?_⟩
        · obtain ⟨goes, after⟩ := follows
            (safe_of_performs request creation created asked ends _ (old.has_performs _ has) rfl)
          exact ⟨new.follows_append _ _ _ ends _ (path safe) goes, after⟩
        · rw [flatten_cons, same]
          rfl

end

end SeaOfNodes
