import SeaOfNodes.Proofs.Graph.Uses

/-! The redirection of the uses of a node, edge by edge. -/

namespace SeaOfNodes

open List

-- The steps go through until they meet an item that is bad.
theorem fold_m_splits {ε α β : Type} {items : List β} (step : α → β → Except ε α) {holds : List β → α → Prop} (bad : β → Prop)
    (fault : ε) {value : α} (begins : holds [] value)
    (steps : ∀ done item value, item ∈ items → holds done value →
      (∃ next, step value item = .ok next ∧ ¬ bad item ∧ holds (done ++ [item]) next) ∨ step value item = .error fault ∧ bad item) :
    (∃ result, items.foldlM step value = .ok result ∧ (∀ item ∈ items, ¬ bad item) ∧ holds items result) ∨
      items.foldlM step value = .error fault ∧ ∃ item ∈ items, bad item := by
  suffices general : ∀ rest done value, done ++ rest = items → holds done value →
      (∃ result, rest.foldlM step value = .ok result ∧ (∀ item ∈ rest, ¬ bad item) ∧ holds items result) ∨
        rest.foldlM step value = .error fault ∧ ∃ item ∈ rest, bad item from general items [] value rfl begins
  intro rest
  induction rest with
  | nil =>
    intro done value whole reached
    rw [append_nil] at whole
    exact .inl ⟨value, rfl, by simp, whole ▸ reached⟩
  | cons item rest ih =>
    intro done value whole reached
    rw [foldlM_cons]
    rcases steps done item value (by simp [← whole]) reached with ⟨next, here, fine, further⟩ | ⟨here, faulty⟩
    · rw [here]
      rcases ih (done ++ [item]) next (by simp [← whole]) further with ⟨result, later, all, final⟩ | ⟨later, other, member, faulty⟩
      · exact .inl ⟨result, later, forall_mem_cons.mpr ⟨fine, all⟩, final⟩
      · exact .inr ⟨later, other, mem_cons_of_mem item member, faulty⟩
    · rw [here]
      exact .inr ⟨rfl, item, mem_cons_self, faulty⟩

def EdgeKind.target? (value : NodeId) (effect control : Option NodeId) : EdgeKind → Option NodeId
  | .control => control
  | .effect => effect
  | _ => some value

namespace Graph

variable {graph : Graph} {id user : NodeId} {node : Node}

def bypasses (graph : Graph) (id user : NodeId) : Bool :=
  (graph.node? user).any fun node => !node.dead && node.op == .control .ifSuccess && node.inputs.contains id

theorem bypasses_iff (graph : Graph) (id user : NodeId) :
    graph.bypasses id user ↔ ∃ node, graph.Live user node ∧ node.op = .control .ifSuccess ∧ id ∈ node.inputs := by
  rw [bypasses]
  cases read : graph.node? user with
  | none => simp [Live, read]
  | some node => simp [Live, read, and_assoc]

theorem bypasses_live (read : graph.node? user = some node) (bypassed : graph.bypasses id user) :
    node.dead = false ∧ node.op = .control .ifSuccess := by
  obtain ⟨again, live, success, _⟩ := (bypasses_iff graph id user).mp bypassed
  cases read.symm.trans live.1
  exact ⟨live.2, success⟩

-- An edit that finds what it changes goes through.
theorem replace_input_runs (graph : Graph) {index : Nat} (input : NodeId) {old : NodeId} (read : graph.node? id = some node)
    (edge : node.inputs[index]? = some old) :
    ∃ later, graph.replaceInput id index input = .ok later ∧ Edited graph later id { node with inputs := node.inputs.set index input } := by
  have found : graph.input id index = .ok old := (graph.input_eq_ok id index old).mpr ⟨node, read, edge⟩
  have runs : ∃ later, graph.replaceInput id index input = .ok later := by
    rw [replaceInput, found]
    by_cases same : old = input
    · exact ⟨graph, if_pos same⟩
    · exact ⟨_, if_neg same⟩
  obtain ⟨later, done⟩ := runs
  exact ⟨later, done, yields_ok _ later (graph.replace_input_yields id index input node read) done⟩

theorem kill_runs (graph : Graph) (read : graph.node? id = some node) :
    ∃ later, graph.kill id = .ok later ∧ Edited graph later id { node with inputs := [], dead := true } := by
  have runs : ∃ later, graph.kill id = .ok later := by
    rw [kill, (graph.node_eq_ok id node).mpr read]
    simp only [bind, Except.bind]
    split
    · split
      · exact ⟨_, rfl⟩
      · exact ⟨_, rfl⟩
    · exact ⟨_, rfl⟩
  obtain ⟨later, done⟩ := runs
  exact ⟨later, done, yields_ok _ later (graph.kill_yields id node read) done⟩

section

variable {seen : List NodeId} {target : NodeId} {new : Graph} (old : Graph) (id value : NodeId) (effect control : Option NodeId)

def drops (user : NodeId) : Prop := control.isSome = true ∧ old.bypasses id user = true

def beyond (seen : List NodeId) (input : NodeId) : NodeId :=
  if old.bypasses id input = true ∧ input ∈ seen then control.getD input else input

-- An input after the edges in `done` have been redirected.
def relocated (done : List (NodeId × Nat)) (user : NodeId) (node : Node) (index : Nat) (input : NodeId) : NodeId :=
  if input = id ∧ node.dead = false ∧ (user, index) ∈ done then
    ((node.op.layout.edgeKind index).target? value effect control).getD (old.beyond id control (done.map Prod.fst) input)
  else old.beyond id control (done.map Prod.fst) input

structure Relocating (done : List (NodeId × Nat)) (new : Graph) : Prop where
  size : new.size = old.size
  mirrored : new.Mirrored
  kept : ∀ user node, old.node? user = some node → ¬ (old.drops id control user ∧ user ∈ done.map Prod.fst) →
    new.node? user = some { node with inputs := node.inputs.mapIdx (old.relocated id value effect control done user node) }
  dropped : ∀ user node, old.node? user = some node → old.drops id control user → user ∈ done.map Prod.fst →
    new.node? user = some { node with inputs := [], dead := true }

variable {old id value effect control}

theorem beyond_seen {input : NodeId} (gone : old.bypasses id input ∧ input ∈ seen) :
    old.beyond id control seen input = control.getD input := if_pos gone

theorem beyond_unseen (input : NodeId) (stays : ¬ (old.bypasses id input ∧ input ∈ seen)) :
    old.beyond id control seen input = input := if_neg stays

theorem relocating_begins (mirrored : old.Mirrored) : Relocating old id value effect control [] old where
  size := rfl
  mirrored := mirrored
  kept user node read _ := by
    have same : node.inputs.mapIdx (old.relocated id value effect control [] user node) = node.inputs := by
      rw [mapIdx_eq_iff]
      intro index
      cases node.inputs[index]? <;> simp [relocated, beyond]
    rw [same]
    exact read
  dropped user _ _ _ member := by cases member

section

variable {later : Graph} (done : List (NodeId × Nat)) (user : NodeId) (index : Nat)

theorem seen_append (other : NodeId) :
    other ∈ (done ++ [(user, index)]).map Prod.fst ↔ other ∈ done.map Prod.fst ∨ other = user := by
  rw [map_append, mem_append, map_singleton, mem_singleton]

theorem beyond_append (input : NodeId) (known : old.drops id control user → user ∈ done.map Prod.fst) :
    old.beyond id control ((done ++ [(user, index)]).map Prod.fst) input = old.beyond id control (done.map Prod.fst) input := by
  simp only [beyond, seen_append]
  by_cases same : input = user
  · subst same
    by_cases bypassed : old.bypasses id input
    · cases control with
      | none => rw [Option.getD_none, ite_self, ite_self]
      | some target => simp only [bypassed, known ⟨rfl, bypassed⟩, or_true]
    · simp [bypassed]
  · simp only [same, or_false]

-- One more edge makes a difference to itself, if it has a target, and to the edges of a projection that is bypassed now.
theorem relocated_append {reader : NodeId} {node : Node} {place : Nat} {input : NodeId}
    (known : old.drops id control user → user ∈ done.map Prod.fst)
    (stays : (reader, place) = (user, index) → input = id → node.dead = false →
      (node.op.layout.edgeKind place).target? value effect control = none) :
    old.relocated id value effect control (done ++ [(user, index)]) reader node place input =
      old.relocated id value effect control done reader node place input := by
  rw [relocated, relocated, beyond_append done user index input known]
  by_cases here : (reader, place) = (user, index)
  · by_cases moves : input = id ∧ node.dead = false
    · rw [stays here moves.1 moves.2, Option.getD_none, ite_self, ite_self]
    · have still : ∀ more : List (NodeId × Nat), ¬ (input = id ∧ node.dead = false ∧ (reader, place) ∈ more) := fun _ all => moves ⟨all.1, all.2.1⟩
      rw [if_neg (still _), if_neg (still _)]
  · simp [mem_append, here]

variable (new : Graph) (reached : Relocating old id value effect control done new)

include reached

theorem relocating_rests (read : old.node? user = some node) (idle : old.drops id control user ∧ user ∈ done.map Prod.fst ∨
      node.dead ∨ node.dead = false ∧ (node.op.layout.edgeKind index).target? value effect control = none) :
    Relocating old id value effect control (done ++ [(user, index)]) new := by
  have known : old.drops id control user → user ∈ done.map Prod.fst := by
    intro drops
    rcases idle with ⟨_, member⟩ | dead | ⟨_, without⟩
    · exact member
    · rw [(bypasses_live read drops.2).1] at dead
      cases dead
    · rw [(bypasses_live read drops.2).2] at without
      change control = none at without
      rw [without] at drops
      cases drops.1
  have seen : ∀ other, old.drops id control other → (other ∈ (done ++ [(user, index)]).map Prod.fst ↔ other ∈ done.map Prod.fst) := by
    intro other drops
    rw [seen_append, or_iff_left_iff_imp]
    rintro rfl
    exact known drops
  refine ⟨reached.size, reached.mirrored, ?_, ?_⟩
  · intro reader original there stays
    have before : ¬ (old.drops id control reader ∧ reader ∈ done.map Prod.fst) := fun both =>
      stays ⟨both.1, (seen reader both.1).mpr both.2⟩
    rw [reached.kept reader original there before]
    congr 3
    funext place input
    symm
    apply relocated_append done user index known
    intro here _ live
    cases here
    cases read.symm.trans there
    rcases idle with gone | dead | ⟨_, without⟩
    · exact absurd gone before
    · rw [live] at dead
      cases dead
    · exact without
  · intro other original there drops member
    exact reached.dropped other original there drops ((seen other drops).mp member)

theorem relocating_moves (live : old.Live user node) (edge : node.inputs[index]? = some id)
    (plain : node.op ≠ .control .ifSuccess) (chosen : (node.op.layout.edgeKind index).target? value effect control = some target)
    (moved : Edited new later user
      { node with inputs := (node.inputs.mapIdx (old.relocated id value effect control done user node)).set index target }) :
    Relocating old id value effect control (done ++ [(user, index)]) later := by
  have undropped : ∀ other, old.drops id control other → other ≠ user := by
    rintro other drops rfl
    exact plain (bypasses_live live.1 drops.2).2
  have seen : ∀ other, old.drops id control other → other ∈ (done ++ [(user, index)]).map Prod.fst → other ∈ done.map Prod.fst := by
    intro other drops member
    exact ((seen_append done user index other).mp member).resolve_right (undropped other drops)
  have same : ∀ reader (original : Node) place input, (reader, place) ≠ (user, index) →
      old.relocated id value effect control (done ++ [(user, index)]) reader original place input =
        old.relocated id value effect control done reader original place input := fun reader original place input apart =>
    relocated_append done user index (fun drops => absurd rfl (undropped user drops)) fun here => absurd here apart
  refine ⟨moved.size.trans reached.size, moved.mirrored reached.mirrored, ?_, ?_⟩
  · intro reader original there stays
    by_cases here : reader = user
    · subst here
      cases live.1.symm.trans there
      rw [moved.here]
      congr 2
      symm
      rw [mapIdx_eq_iff]
      intro place
      rw [getElem?_set, length_mapIdx, getElem?_mapIdx]
      by_cases at_ : index = place
      · subst at_
        rw [if_pos rfl, if_pos (List.getElem?_eq_some_iff.mp edge).1, edge, Option.map_some]
        simp [relocated, live.2, chosen]
      · rw [if_neg at_]
        cases node.inputs[place]? with
        | none => rfl
        | some input => rw [Option.map_some, Option.map_some, same reader node place input (by simpa using Ne.symm at_)]
    · have before : ¬ (old.drops id control reader ∧ reader ∈ done.map Prod.fst) := fun both =>
        stays ⟨both.1, (seen_append done user index reader).mpr (.inl both.2)⟩
      rw [moved.elsewhere reader here, reached.kept reader original there before]
      congr 3
      funext place input
      exact (same reader original place input (by simp [here])).symm
  · intro other original there drops member
    rw [moved.elsewhere other (undropped other drops)]
    exact reached.dropped other original there drops (seen other drops member)

-- No target of an edge is a projection that goes away, but for the control itself, and that is where its edges go.
theorem relocating_drops (valueStays : old.bypasses id value = false)
    (effectStays : ∀ target, effect = some target → old.bypasses id target = false) (read : old.node? user = some node)
    (bypassed : old.bypasses id user) {source : NodeId} (given : control = some source)
    (moved : Edited (new.replaceAllUses user source) later user { node with inputs := [], dead := true }) :
    Relocating old id value effect control (done ++ [(user, index)]) later := by
  subst given
  have drops : old.drops id (some source) user := ⟨rfl, bypassed⟩
  have rewritten := new.replace_all_uses_node reached.mirrored user source
  have member : user ∈ (done ++ [(user, index)]).map Prod.fst := (seen_append done user index user).mpr (.inr rfl)
  have toward : ∀ kind : EdgeKind, kind.target? value effect (some source) = some user → source = user := by
    intro kind chosen
    cases kind with
    | control => exact Option.some.inj chosen
    | effect =>
      rw [effectStays user chosen] at bypassed
      cases bypassed
    | value | context | frameState =>
      cases chosen
      rw [valueStays] at bypassed
      cases bypassed
  refine ⟨moved.size.trans ((new.replace_all_uses_size user source).trans reached.size),
    moved.mirrored (new.replace_all_uses_mirrored reached.mirrored user source), ?_, ?_⟩
  · intro reader original there stays
    have apart : reader ≠ user := by
      rintro rfl
      exact stays ⟨drops, member⟩
    have before : ¬ (old.drops id (some source) reader ∧ reader ∈ done.map Prod.fst) := fun both =>
      stays ⟨both.1, (seen_append done user index reader).mpr (.inl both.2)⟩
    rw [moved.elsewhere reader apart, rewritten reader, reached.kept reader original there before, Option.map_some]
    congr 2
    rw [map_eq_iff]
    intro place
    rw [getElem?_mapIdx, getElem?_mapIdx]
    cases original.inputs[place]? with
    | none => rfl
    | some input =>
      have listed : (reader, place) ∈ done ++ [(user, index)] ↔ (reader, place) ∈ done := by simp [apart]
      have onward : old.beyond id (some source) ((done ++ [(user, index)]).map Prod.fst) input =
          if old.beyond id (some source) (done.map Prod.fst) input = user then source
          else old.beyond id (some source) (done.map Prod.fst) input := by
        by_cases gone : old.bypasses id input ∧ input ∈ done.map Prod.fst
        · have later := (seen_append done user index input).mpr (.inl gone.2)
          rw [beyond_seen gone, beyond_seen ⟨gone.1, later⟩, Option.getD_some, ite_self]
        · rw [beyond_unseen input gone]
          by_cases same : input = user
          · rw [if_pos same, same, beyond_seen ⟨bypassed, member⟩, Option.getD_some]
          · rw [if_neg same, beyond_unseen]
            exact fun both => gone ⟨both.1, ((seen_append done user index input).mp both.2).resolve_right same⟩
      simp only [Option.map_some, relocated, listed]
      by_cases moves : input = id ∧ original.dead = false ∧ (reader, place) ∈ done
      · rw [if_pos moves, if_pos moves, onward]
        cases kind : (original.op.layout.edgeKind place).target? value effect (some source) with
        | none => rfl
        | some target =>
          rw [Option.getD_some, Option.getD_some]
          by_cases same : target = user
          · rw [if_pos same, same]
            exact congrArg some (toward _ (same ▸ kind)).symm
          · rw [if_neg same]
      · rw [if_neg moves, if_neg moves, onward]
  · intro other original there dropped seen
    by_cases same : other = user
    · subst same
      cases read.symm.trans there
      exact moved.here
    · have before := ((seen_append done user index other).mp seen).resolve_right same
      rw [moved.elsewhere other same, rewritten other, reached.dropped other original there dropped before]
      rfl

end

theorem layout_runs {graph : Graph} {user : NodeId} {node : Node} (read : graph.node? user = some node) :
    graph.layout user = node.op.checkedLayout := by
  rw [Graph.layout, (graph.op_eq_ok user node.op).mpr ⟨node, read, rfl⟩]
  rfl

theorem redirect_edge_dead (index : Nat) (read : graph.node? user = some node) (dead : node.dead) :
    redirectEdge value effect control graph (user, index) = .ok graph := by
  rw [redirectEdge, (graph.node_eq_ok user node).mpr read]
  exact if_pos dead

section

variable (graph : Graph) (user : NodeId) (index : Nat) (node : Node) (live : graph.Live user node)

include live

theorem redirect_edge_overflows (wide : node.op.fits = false) :
    redirectEdge value effect control graph (user, index) = .error .overflow := by
  have refused : graph.edgeKind user index = .error .overflow := by
    rw [edgeKind, layout_runs live.1, Operator.checkedLayout, wide]
    rfl
  rw [redirectEdge, (graph.node_eq_ok user node).mpr live.1, refused]
  exact if_neg (by simp [live.2])

variable (fits : node.op.fits)

include fits

theorem edge_kind_runs : graph.edgeKind user index = .ok (node.op.layout.edgeKind index) := by
  rw [edgeKind, layout_runs live.1, Operator.checkedLayout, fits]
  rfl

theorem redirect_edge_rests (without : (node.op.layout.edgeKind index).target? value effect control = none) :
    redirectEdge value effect control graph (user, index) = .ok graph := by
  rw [redirectEdge, (graph.node_eq_ok user node).mpr live.1, edge_kind_runs graph user index node live fits]
  refine (if_neg (by simp [live.2])).trans ?_
  generalize node.op.layout.edgeKind index = kind at without ⊢
  cases kind with
  | control | effect =>
    cases without
    rfl
  | value | context | frameState => cases without

-- All inputs of a success projection count as its control.
theorem redirect_edge_moves (chosen : (node.op.layout.edgeKind index).target? value effect control = some target) :
    redirectEdge value effect control graph (user, index) =
      if node.op = .control .ifSuccess then (graph.replaceAllUses user target).kill user
      else graph.replaceInput user index target := by
  rw [redirectEdge, (graph.node_eq_ok user node).mpr live.1, edge_kind_runs graph user index node live fits]
  refine (if_neg (by simp [live.2])).trans ?_
  have plain : node.op.layout.edgeKind index ≠ .control → node.op ≠ .control .ifSuccess := by
    intro other success
    rw [success] at other
    exact other rfl
  generalize node.op.layout.edgeKind index = kind at chosen plain ⊢
  cases kind with
  | control =>
    cases chosen
    rfl
  | effect | value | context | frameState =>
    cases chosen
    exact (if_neg (plain (by simp))).symm

end

def Overflows (graph : Graph) (id : NodeId) : Prop := ∃ node, graph.Live id node ∧ node.op.fits = false

theorem redirect_edge_relocates (mirrored : old.Mirrored) (valueStays : old.bypasses id value = false)
    (effectStays : ∀ target, effect = some target → old.bypasses id target = false) {done : List (NodeId × Nat)}
    {edge : NodeId × Nat} (member : edge ∈ old.useEdges id) (reached : Relocating old id value effect control done new) :
    (∃ later, redirectEdge value effect control new edge = .ok later ∧ ¬ old.Overflows edge.1 ∧
        Relocating old id value effect control (done ++ [edge]) later) ∨
      redirectEdge value effect control new edge = .error .overflow ∧ old.Overflows edge.1 := by
  obtain ⟨user, index⟩ := edge
  have points := (old.mirrored_edge mirrored id user index).mp member
  cases read : old.node? user with
  | none =>
    rw [old.inputs_of_none read] at points
    cases points
  | some node =>
    rw [old.inputs_of_eq user node read] at points
    have narrow : node.dead ∨ node.op.fits → ¬ old.Overflows user := by
      rintro cause ⟨other, live, wide⟩
      cases read.symm.trans live.1
      simp [live.2, wide] at cause
    by_cases gone : old.drops id control user ∧ user ∈ done.map Prod.fst
    · refine .inl ⟨new, redirect_edge_dead index (reached.dropped user node read gone.1 gone.2) rfl, narrow (.inr ?_),
        relocating_rests done user index new reached read (.inl gone)⟩
      rw [(bypasses_live read gone.1.2).2]
      rfl
    · have kept := reached.kept user node read gone
      cases dead : node.dead with
      | true =>
        exact .inl ⟨new, redirect_edge_dead index kept dead, narrow (.inl dead),
          relocating_rests done user index new reached read (.inr (.inl dead))⟩
      | false =>
        cases fits : node.op.fits with
        | false => exact .inr ⟨redirect_edge_overflows new user index _ ⟨kept, dead⟩ fits, node, ⟨read, dead⟩, fits⟩
        | true =>
          cases chosen : (node.op.layout.edgeKind index).target? value effect control with
          | none =>
            exact .inl ⟨new, redirect_edge_rests new user index _ ⟨kept, dead⟩ fits chosen, narrow (.inr fits),
              relocating_rests done user index new reached read (.inr (.inr ⟨dead, chosen⟩))⟩
          | some target =>
            rw [redirect_edge_moves new user index _ ⟨kept, dead⟩ fits chosen]
            by_cases success : node.op = .control .ifSuccess
            · have given : control = some target := by
                rw [success] at chosen
                exact chosen
              have bypassed := (bypasses_iff old id user).mpr ⟨node, ⟨read, dead⟩, success, mem_of_getElem? points⟩
              have found := (new.replace_all_uses_node reached.mirrored user target user).trans (by rw [kept, Option.map_some])
              obtain ⟨later, run, moved⟩ := (new.replaceAllUses user target).kill_runs found
              rw [if_pos success]
              exact .inl ⟨later, run, narrow (.inr fits),
                relocating_drops done user index new reached valueStays effectStays read bypassed given moved⟩
            · have edge : (node.inputs.mapIdx (old.relocated id value effect control done user node))[index]? =
                  some (old.relocated id value effect control done user node index id) := by
                rw [getElem?_mapIdx, points, Option.map_some]
              obtain ⟨later, run, moved⟩ := new.replace_input_runs target kept edge
              rw [if_neg success]
              exact .inl ⟨later, run, narrow (.inr fits),
                relocating_moves done user index new reached ⟨read, dead⟩ points success chosen moved⟩

variable (old id value effect control)

def replaced (node : Node) (index : Nat) (input : NodeId) : NodeId :=
  let onward := if old.bypasses id input = true then control.getD input else input
  if input = id ∧ node.dead = false then ((node.op.layout.edgeKind index).target? value effect control).getD onward else onward

structure Replaced (new : Graph) : Prop where
  size : new.size = old.size
  mirrored : new.Mirrored
  kept : ∀ user node, old.node? user = some node → ¬ old.drops id control user →
    new.node? user = some { node with inputs := node.inputs.mapIdx (old.replaced id value effect control node) }
  dropped : ∀ user node, old.node? user = some node → old.drops id control user →
    new.node? user = some { node with inputs := [], dead := true }

variable {old id value effect control}

theorem mem_edge_users (mirrored : old.Mirrored) (user : NodeId) :
    user ∈ (old.useEdges id).map Prod.fst ↔ id ∈ old.inputsOf user := by
  rw [mem_map]
  constructor
  · rintro ⟨⟨_, index⟩, member, rfl⟩
    exact mem_of_getElem? ((old.mirrored_edge mirrored id _ index).mp member)
  · intro input
    obtain ⟨index, edge⟩ := mem_iff_getElem?.mp input
    exact ⟨(user, index), (old.mirrored_edge mirrored id user index).mpr edge, rfl⟩

theorem replaced_of_all (mirrored : old.Mirrored) (reached : Relocating old id value effect control (old.useEdges id) new) :
    Replaced old id value effect control new := by
  have seen : ∀ user, old.bypasses id user → user ∈ (old.useEdges id).map Prod.fst := by
    intro user bypassed
    obtain ⟨node, live, _, member⟩ := (bypasses_iff old id user).mp bypassed
    rw [mem_edge_users mirrored, inputs_of_eq old user node live.1]
    exact member
  refine ⟨reached.size, reached.mirrored, ?_, fun user node read drops => reached.dropped user node read drops (seen user drops.2)⟩
  intro user node read stays
  rw [reached.kept user node read fun both => stays both.1]
  congr 2
  rw [mapIdx_eq_iff]
  intro index
  rw [getElem?_mapIdx]
  cases edge : node.inputs[index]? with
  | none => rfl
  | some input =>
    have onward : old.beyond id control ((old.useEdges id).map Prod.fst) input =
        if old.bypasses id input = true then control.getD input else input := by
      by_cases bypassed : old.bypasses id input
      · rw [if_pos bypassed, beyond_seen ⟨bypassed, seen input bypassed⟩]
      · rw [if_neg bypassed, beyond_unseen input fun both => bypassed both.1]
    rw [Option.map_some, Option.map_some, relocated, replaced, onward]
    have listed : (input = id ∧ node.dead = false ∧ (user, index) ∈ old.useEdges id) ↔ (input = id ∧ node.dead = false) := by
      refine and_congr_right fun atId => and_iff_left_of_imp fun _ => ?_
      rw [old.mirrored_edge mirrored, inputs_of_eq old user node read, edge, atId]
    simp only [listed]

theorem redirect_all_replaces (mirrored : old.Mirrored) (valueStays : old.bypasses id value = false)
    (effectStays : ∀ target, effect = some target → old.bypasses id target = false) :
    (∃ new, (old.useEdges id).foldlM (redirectEdge value effect control) old = .ok new ∧
        (∀ user, id ∈ old.inputsOf user → ¬ old.Overflows user) ∧ Replaced old id value effect control new) ∨
      (old.useEdges id).foldlM (redirectEdge value effect control) old = .error .overflow ∧
        ∃ user, id ∈ old.inputsOf user ∧ old.Overflows user := by
  have users : ∀ user, user ∈ (old.useEdges id).map Prod.fst ↔ id ∈ old.inputsOf user := mem_edge_users mirrored
  rcases fold_m_splits (redirectEdge value effect control)
    (fun edge => old.Overflows edge.1) .overflow (relocating_begins mirrored)
    (fun done edge new member reached => redirect_edge_relocates mirrored valueStays effectStays member reached) with
    ⟨new, run, fits, reached⟩ | ⟨run, edge, member, wide⟩
  · refine .inl ⟨new, run, fun user input => ?_, replaced_of_all mirrored reached⟩
    obtain ⟨edge, member, rfl⟩ := mem_map.mp ((users user).mpr input)
    exact fits edge member
  · exact .inr ⟨run, edge.1, (users edge.1).mp (mem_map_of_mem member), wide⟩

end

end Graph

end SeaOfNodes
