import SeaOfNodes.Proofs.Graph.Verified
import SeaOfNodes.Proofs.Yields

/-! Use lists mirror the inputs, and every edit of one node keeps them so. -/

namespace SeaOfNodes

open List

variable {id : NodeId} {ids : List NodeId}

theorem count_swap_erase {other : NodeId} : (swapErase id ids).count other = ids.count other - if other = id then 1 else 0 := by
  rw [swapErase]
  cases found : ids.idxOf? id with
  | none =>
    have absent : id ∉ ids := idxOf?_eq_none_iff.mp found
    by_cases same : other = id
    · subst same
      simp [count_eq_zero.mpr absent]
    · simp [same]
  | some index =>
    obtain ⟨inside, here, _⟩ := idxOf?_eq_some_iff.mp found
    cases final : ids.getLast? with
    | none =>
      rw [getLast?_eq_none_iff.mp final] at inside
      exact absurd inside (Nat.not_lt_zero index)
    | some last =>
      obtain ⟨front, rfl⟩ := getLast?_eq_some_iff.mp final
      show (((front ++ [last]).set index last).dropLast).count other = _
      rw [set_append]
      split
      · rename_i early
        rw [getElem_append_left early] at here
        rw [dropLast_concat, count_set early, here, count_append, count_singleton]
        have present : other = id → 0 < front.count other := by
          rintro rfl
          exact count_pos_iff.mpr (here ▸ getElem_mem early)
        by_cases same : other = id
        · have := present same
          simp only [same, beq_self_eq_true, if_true] at this ⊢
          omega
        · simp only [same, Ne.symm same, beq_iff_eq, if_false, Nat.sub_zero]
      · rename_i late
        have place : index = front.length := by
          simp only [length_append, length_singleton] at inside
          omega
        subst place
        rw [getElem_concat_length rfl] at here
        subst here
        rw [Nat.sub_self, set_cons_zero, dropLast_concat, count_append, count_singleton]
        by_cases same : other = last
        · simp [same]
        · simp [same, Ne.symm same]

namespace Graph

variable {old new : Graph} {node : Node}

def Mirrored (graph : Graph) : Prop :=
  ∀ definition user, (graph.usesOf definition).count user = (graph.inputsOf user).count definition

theorem empty_mirrored : empty.Mirrored := by
  intro definition user
  have unused : empty.usesOf definition = [] := by simp [usesOf, empty, SideTable.read, SideTable.empty]; rfl
  have bare : empty.inputsOf user = [] := by rcases user with _ | _ | _ <;> rfl
  rw [unused, bare]
  rfl

variable (graph : Graph)

theorem inputs_of_none (missing : graph.node? id = none) : graph.inputsOf id = [] := by
  rw [inputsOf, missing]
  rfl

theorem inputs_of_congr {other : Graph} (same : other.node? id = graph.node? id) : other.inputsOf id = graph.inputsOf id := by
  rw [inputsOf, inputsOf, same]

theorem count_add_use (definition user other reader : NodeId) : ((graph.addUse definition user).usesOf other).count reader =
      (graph.usesOf other).count reader + if other = definition ∧ reader = user then 1 else 0 := by
  have read : (graph.addUse definition user).usesOf other =
      if other = definition then graph.usesOf definition ++ [user] else graph.usesOf other :=
    SideTable.read_update graph.uses definition other (· ++ [user])
  rw [read]
  by_cases same : other = definition
  · subst same
    by_cases here : reader = user
    · simp [here]
    · simp [here, Ne.symm here]
  · simp [same]

theorem count_remove_use (definition user other reader : NodeId) :
    ((graph.removeUse definition user).usesOf other).count reader =
      (graph.usesOf other).count reader - if other = definition ∧ reader = user then 1 else 0 := by
  have read : (graph.removeUse definition user).usesOf other =
      if other = definition then swapErase user (graph.usesOf definition) else graph.usesOf other :=
    SideTable.read_update graph.uses definition other (swapErase user)
  rw [read]
  by_cases same : other = definition
  · subst same
    simp only [if_true, count_swap_erase, true_and]
  · simp [same]

theorem count_add_uses (inputs : List NodeId) (user other reader : NodeId) :
    ((inputs.foldl (fun graph input => graph.addUse input user) graph).usesOf other).count reader =
      (graph.usesOf other).count reader + if reader = user then inputs.count other else 0 := by
  induction inputs generalizing graph with
  | nil => simp
  | cons input rest ih =>
    rw [foldl_cons, ih, count_add_use, count_cons]
    by_cases same : reader = user
    · by_cases here : other = input
      · simp [same, here]
        omega
      · simp [same, here, Ne.symm here]
    · simp [same]

theorem count_remove_uses (inputs : List NodeId) (user other reader : NodeId) :
    ((inputs.foldl (fun graph input => graph.removeUse input user) graph).usesOf other).count reader =
      (graph.usesOf other).count reader - if reader = user then inputs.count other else 0 := by
  induction inputs generalizing graph with
  | nil => simp
  | cons input rest ih =>
    rw [foldl_cons, ih, count_remove_use, count_cons]
    by_cases same : reader = user
    · by_cases here : other = input
      · simp [same, here]
        omega
      · simp [same, here, Ne.symm here]
    · simp [same]

theorem nodes_remove_uses (inputs : List NodeId) (user : NodeId) :
    (inputs.foldl (fun graph input => graph.removeUse input user) graph).nodes = graph.nodes := by
  induction inputs generalizing graph with
  | nil => rfl
  | cons input rest ih => exact ih (graph.removeUse input user)

theorem uses_remove_uses (inputs : List NodeId) (change : Node → Node) :
    (inputs.foldl (fun graph input => graph.removeUse input id) (graph.modifyNode id change)).uses =
      (inputs.foldl (fun graph input => graph.removeUse input id) graph).uses := by
  induction inputs generalizing graph with
  | nil => rfl
  | cons input rest ih => exact ih (graph.removeUse input id)

theorem push_mirrored (node : Node) (mirrored : graph.Mirrored) : (graph.push node).2.Mirrored := by
  intro definition other
  have counts : ((graph.push node).2.usesOf definition).count other =
      (graph.usesOf definition).count other + if other = graph.size then node.inputs.count definition else 0 :=
    count_add_uses { graph with nodes := (graph.nodes.alloc node).2 } node.inputs graph.size definition other
  rw [counts, mirrored definition other]
  by_cases same : other = graph.size
  · subst same
    have missing : graph.node? graph.size = none := Array.getElem?_eq_none (le_refl graph.size)
    have made : (graph.push node).2.inputsOf graph.size = node.inputs := inputs_of_eq _ _ node (by rw [node_push, if_pos rfl])
    rw [if_pos rfl, made, inputs_of_none graph missing, count_nil, zero_add]
  · have kept : (graph.push node).2.node? other = graph.node? other := by rw [node_push, if_neg same]
    rw [if_neg same, inputs_of_congr graph kept, add_zero]

structure Edited (old new : Graph) (id : NodeId) (next : Node) : Prop where
  inside : id < old.size
  size : new.size = old.size
  here : new.node? id = some next
  elsewhere : ∀ other, other ≠ id → new.node? other = old.node? other
  mirrored : old.Mirrored → new.Mirrored

theorem edited_trans {middle : Graph} {first second : Node} (before : Edited old middle id first)
    (after : Edited middle new id second) : Edited old new id second where
  inside := before.inside
  size := after.size.trans before.size
  here := after.here
  elsewhere other different := (after.elsewhere other different).trans (before.elsewhere other different)
  mirrored mirrored := after.mirrored (before.mirrored mirrored)

-- The change goes to the node and to the use lists apart; together they have to balance.
theorem edited_of_balance (change : Node → Node) (dropped added : List NodeId) (read : old.node? id = some node)
    (nodes : new.nodes = (old.modifyNode id change).nodes)
    (uses : new.uses = (added.foldl (fun graph input => graph.addUse input id)
      (dropped.foldl (fun graph input => graph.removeUse input id) old)).uses)
    (held : ∀ input, dropped.count input ≤ node.inputs.count input)
    (balance : ∀ input, dropped.count input + (change node).inputs.count input = added.count input + node.inputs.count input) :
    Edited old new id (change node) := by
  have here : new.node? id = some (change node) := by rw [node?, nodes, ← node?, node_modify, if_pos rfl, read, Option.map_some]
  have elsewhere (other : NodeId) (different : other ≠ id) : new.node? other = old.node? other := by
    rw [node?, nodes, ← node?, node_modify, if_neg different]
  refine ⟨node_lt old read, by rw [size, nodes]; exact old.size_modify id change, here, elsewhere, ?_⟩
  intro mirrored definition other
  have before := mirrored definition other
  rw [usesOf, uses, ← usesOf, count_add_uses, count_remove_uses]
  by_cases same : other = id
  · subst same
    have := held definition
    have := balance definition
    rw [inputs_of_eq old other node read] at before
    rw [if_pos rfl, if_pos rfl, inputs_of_eq new other _ here]
    omega
  · rw [if_neg same, if_neg same, inputs_of_congr old (elsewhere other same)]
    exact before

theorem edited_self (read : graph.node? id = some node) : Edited graph graph id node :=
  ⟨node_lt graph read, rfl, read, fun _ _ => rfl, fun mirrored => mirrored⟩

theorem modify_edited {change : Node → Node} (read : graph.node? id = some node) (kept : (change node).inputs = node.inputs) :
    Edited graph (graph.modifyNode id change) id (change node) :=
  edited_of_balance change [] [] read rfl rfl (by simp) (by simp [kept])

theorem set_type_yields (id : NodeId) (type : ValueType) (node : Node) (read : graph.node? id = some node) :
    Yields (graph.setType id type) fun new => Edited graph new id { node with type := type } := by
  rw [setType, (graph.node_eq_ok id node).mpr read]
  exact graph.modify_edited read rfl

theorem change_op_yields (id : NodeId) (op : Operator) (node : Node) (read : graph.node? id = some node) :
    Yields (graph.changeOp id op) fun new => Edited graph new id { node with op := op } := by
  rw [changeOp, (graph.node_eq_ok id node).mpr read]
  exact graph.modify_edited read rfl

theorem append_input_yields (id input : NodeId) (node : Node) (read : graph.node? id = some node) :
    Yields (graph.appendInput id input) fun new => Edited graph new id { node with inputs := node.inputs ++ [input] } := by
  rw [appendInput, (graph.node_eq_ok id node).mpr read]
  exact edited_of_balance (fun node => { node with inputs := node.inputs ++ [input] }) [] [input] read rfl rfl (by simp)
    (by simp [count_append, add_comm])

theorem replace_input_yields (id : NodeId) (index : Nat) (input : NodeId) (node : Node) (read : graph.node? id = some node) :
    Yields (graph.replaceInput id index input) fun new =>
      Edited graph new id { node with inputs := node.inputs.set index input } := by
  rw [replaceInput, Graph.input, (graph.node_eq_ok id node).mpr read]
  refine yields_bind (fun old => node.inputs[index]? = some old) (yields_present fun _ found => found) ?_
  intro old found
  obtain ⟨inside, here⟩ := List.getElem?_eq_some_iff.mp found
  have held (definition : NodeId) : [old].count definition ≤ node.inputs.count definition :=
    (singleton_sublist.mpr (here ▸ getElem_mem inside)).count_le definition
  refine yields_ite ?_ ?_
  · -- The edge is there already.
    intro same
    have unchanged : { node with inputs := node.inputs.set index input } = node := by
      rw [← same, ← here, set_getElem_self]
    rw [unchanged]
    exact graph.edited_self read
  · intro _
    refine edited_of_balance (fun node => { node with inputs := node.inputs.set index input }) [old] [input] read rfl rfl held ?_
    intro definition
    have := held definition
    rw [count_set inside, here]
    simp only [count_singleton] at this ⊢
    omega

-- Inputs that go away leave the use lists one by one.
theorem dropped_edited (change : Node → Node) (dropped : List NodeId) (read : old.node? id = some node)
    (nodes : new.nodes = (dropped.foldl (fun graph input => graph.removeUse input id) (old.modifyNode id change)).nodes)
    (uses : new.uses = (dropped.foldl (fun graph input => graph.removeUse input id) (old.modifyNode id change)).uses)
    (parts : (dropped ++ (change node).inputs).Perm node.inputs) : Edited old new id (change node) := by
  have counts (input : NodeId) : dropped.count input + (change node).inputs.count input = node.inputs.count input :=
    count_append.symm.trans (parts.count_eq input)
  have nodes := nodes.trans (nodes_remove_uses _ dropped id)
  have uses := uses.trans (uses_remove_uses old dropped change)
  exact edited_of_balance change dropped [] read nodes uses (fun input => by rw [← counts]; exact Nat.le_add_right _ _)
    (fun input => by rw [counts, count_nil, zero_add])

theorem trim_inputs_yields (id : NodeId) (count : Nat) (node : Node) (read : graph.node? id = some node) :
    Yields (graph.trimInputs id count) fun new => Edited graph new id { node with inputs := node.inputs.take count } := by
  rw [trimInputs, (graph.node_eq_ok id node).mpr read]
  refine yields_pure ?_
  rw [foldr_eq_foldl_reverse]
  refine dropped_edited (fun node => { node with inputs := node.inputs.take count }) _ read rfl rfl ?_
  exact ((reverse_perm _).append_right _).trans (perm_append_comm.trans (.of_eq (take_append_drop count node.inputs)))

theorem kill_yields (id : NodeId) (node : Node) (read : graph.node? id = some node) :
    Yields (graph.kill id) fun new => Edited graph new id { node with inputs := [], dead := true } := by
  let bare := node.inputs.foldl (fun graph input => graph.removeUse input id)
    (graph.modifyNode id fun node => { node with inputs := [], dead := true })
  -- The table of constants takes no part in nodes or uses.
  have made (new : Graph) (nodes : new.nodes = bare.nodes) (uses : new.uses = bare.uses) :
      Edited graph new id { node with inputs := [], dead := true } :=
    dropped_edited (fun node => { node with inputs := [], dead := true }) node.inputs read nodes uses (by simp)
  rw [kill, (graph.node_eq_ok id node).mpr read]
  refine yields_bind (fun found => node = found) (yields_pure rfl) ?_
  rintro _ rfl
  dsimp only
  split
  · exact yields_ite (fun _ => made _ rfl rfl) fun _ => made _ rfl rfl
  · exact made bare rfl rfl

theorem mem_insert_unique (id other : NodeId) (ids : List NodeId) : other ∈ insertUnique id ids ↔ other = id ∨ other ∈ ids := by
  induction ids with
  | nil => simp [insertUnique]
  | cons first rest ih =>
    rw [insertUnique]
    split
    · simp
    · split
      · rename_i same
        simp [same]
      · rw [mem_cons, ih, mem_cons]
        tauto

theorem insert_unique_ascending (id : NodeId) (ascending : ids.Pairwise (· < ·)) : (insertUnique id ids).Pairwise (· < ·) := by
  induction ids with
  | nil => simp [insertUnique]
  | cons first rest ih =>
    obtain ⟨below, later⟩ := pairwise_cons.mp ascending
    rw [insertUnique]
    split
    · rename_i smaller
      exact pairwise_cons.mpr
        ⟨forall_mem_cons.mpr ⟨smaller, fun other further => lt_trans smaller (below other further)⟩, ascending⟩
    split
    · exact ascending
    · rename_i larger different
      refine pairwise_cons.mpr ⟨?_, ih later⟩
      intro other member
      rcases (mem_insert_unique id other rest).mp member with rfl | further
      · exact Nat.lt_of_le_of_ne (Nat.le_of_not_lt larger) (Ne.symm different)
      · exact below other further

theorem mem_users (id user : NodeId) : user ∈ graph.users id ↔ user ∈ graph.usesOf id := by
  rw [users]
  induction graph.usesOf id with
  | nil => rfl
  | cons first rest ih => rw [foldr_cons, mem_insert_unique, ih, mem_cons]

theorem users_nodup (id : NodeId) : (graph.users id).Nodup := by
  have ascending : (graph.users id).Pairwise (· < ·) := by
    rw [users]
    induction graph.usesOf id with
    | nil => exact .nil
    | cons first rest ih => exact insert_unique_ascending first ih
  exact ascending.imp fun below => below.ne

theorem mem_use_edges (id user : NodeId) (index : Nat) :
    (user, index) ∈ graph.useEdges id ↔ user ∈ graph.usesOf id ∧ (graph.inputsOf user)[index]? = some id := by
  rw [useEdges, mem_flatMap]
  constructor
  · rintro ⟨other, member, edge⟩
    obtain ⟨⟨input, place⟩, read, kept⟩ := mem_filterMap.mp edge
    dsimp only at kept
    split at kept
    · rename_i same
      cases kept
      subst same
      exact ⟨(graph.mem_users input user).mp member, mem_zipIdx_iff_getElem?.mp read⟩
    · cases kept
  · rintro ⟨member, read⟩
    refine ⟨user, (graph.mem_users id user).mpr member, ?_⟩
    exact mem_filterMap.mpr ⟨(id, index), mem_zipIdx_iff_getElem?.mpr read, if_pos rfl⟩

theorem mirrored_edge (mirrored : graph.Mirrored) (id user : NodeId) (index : Nat) :
    (user, index) ∈ graph.useEdges id ↔ (graph.inputsOf user)[index]? = some id := by
  rw [mem_use_edges]
  constructor
  · exact fun both => both.2
  · intro read
    refine ⟨?_, read⟩
    rw [← count_pos_iff, mirrored id user]
    exact count_pos_iff.mpr (mem_of_getElem? read)

-- The edges of a user to a definition, counted at their user.
theorem edge_users (id user : NodeId) (inputs : List NodeId) (from_ : Nat) :
    ((inputs.zipIdx from_).filterMap fun (input, index) => if input = id then some (user, index) else none).map Prod.fst =
      replicate (inputs.count id) user := by
  induction inputs generalizing from_ with
  | nil => rfl
  | cons input rest ih =>
    rw [zipIdx_cons, count_cons]
    by_cases same : input = id
    · rw [filterMap_cons_some (b := (user, from_)) (by simp [same]), map_cons, ih]
      simp [same, replicate_succ]
    · rw [filterMap_cons_none (by simp [same]), ih]
      simp [same]

theorem count_edge_users (mirrored : graph.Mirrored) (id user : NodeId) :
    ((graph.useEdges id).map Prod.fst).count user = (graph.inputsOf user).count id := by
  have listed : (graph.useEdges id).map Prod.fst =
      (graph.users id).flatMap fun other => replicate ((graph.inputsOf other).count id) other := by
    rw [useEdges, map_flatMap]
    exact congrArg (graph.users id).flatMap (funext fun other => edge_users id other (graph.inputsOf other) 0)
  have once : ∀ ids : List NodeId, ids.Nodup →
      (ids.flatMap fun other => replicate ((graph.inputsOf other).count id) other).count user =
        if user ∈ ids then (graph.inputsOf user).count id else 0 := by
    intro ids nodup
    induction ids with
    | nil => rfl
    | cons first rest ih =>
      obtain ⟨fresh, later⟩ := nodup_cons.mp nodup
      rw [flatMap_cons, count_append, ih later, count_replicate]
      by_cases same : first = user
      · subst same
        simp [fresh]
      · simp [same, Ne.symm same]
  rw [listed, once _ (graph.users_nodup id)]
  split
  · rfl
  · rename_i absent
    rw [mem_users, ← count_eq_zero, mirrored id user] at absent
    exact absent.symm

theorem count_substituted {old new : NodeId} (other : NodeId) (different : old ≠ new) (inputs : List NodeId) :
    (inputs.map fun input => if input = old then new else input).count other =
      if other = old then 0 else inputs.count other + if other = new then inputs.count old else 0 := by
  induction inputs with
  | nil => simp
  | cons input rest ih =>
    rw [map_cons, count_cons, ih, count_cons, count_cons]
    by_cases here : input = old
    · subst here
      by_cases first : other = input
      · simp [first, Ne.symm different]
      · by_cases second : other = new
        · simp [second, Ne.symm different, different]
          omega
        · simp [first, second, Ne.symm first, Ne.symm second]
    · by_cases first : other = old
      · simp [first, here]
      · by_cases second : other = new
        · simp [second, here, Ne.symm different]
          omega
        · simp [first, second, here]

def moveEdges (edges : List (NodeId × Nat)) (new : NodeId) : Graph :=
  edges.foldl (fun graph edge =>
    (graph.modifyNode edge.1 fun node => { node with inputs := node.inputs.set edge.2 new }).addUse new edge.1) graph

theorem move_edges_size (edges : List (NodeId × Nat)) (new : NodeId) : (graph.moveEdges edges new).size = graph.size := by
  induction edges generalizing graph with
  | nil => rfl
  | cons edge rest ih =>
    rw [moveEdges, foldl_cons, ← moveEdges, ih, size_add_use, size_modify]

theorem move_edges_node (edges : List (NodeId × Nat)) (new user : NodeId) :
    (graph.moveEdges edges new).node? user = (graph.node? user).map fun node =>
      { node with inputs := node.inputs.mapIdx fun index input => if (user, index) ∈ edges then new else input } := by
  induction edges generalizing graph with
  | nil =>
    have plain : ∀ inputs : List NodeId, inputs.mapIdx (fun _ input => input) = inputs :=
      fun inputs => mapIdx_eq_iff.mpr (by simp)
    cases read : graph.node? user <;> simp [moveEdges, read, plain]
  | cons edge rest ih =>
    obtain ⟨other, place⟩ := edge
    rw [moveEdges, foldl_cons, ← moveEdges, ih, node_add_use, node_modify]
    by_cases same : user = other
    · subst same
      rw [if_pos rfl, Option.map_map]
      congr 1
      funext node
      simp only [Function.comp, Node.mk.injEq, true_and, and_true, mem_cons, Prod.mk.injEq]
      rw [mapIdx_eq_iff]
      intro index
      rw [getElem?_mapIdx, getElem?_set]
      by_cases here : place = index
      · subst here
        by_cases inside : place < node.inputs.length <;> simp [inside]
      · simp [here, Ne.symm here]
    · rw [if_neg same]
      simp [same]

theorem count_move_edges (edges : List (NodeId × Nat)) (new other reader : NodeId) :
    ((graph.moveEdges edges new).usesOf other).count reader =
      (graph.usesOf other).count reader + if other = new then (edges.map Prod.fst).count reader else 0 := by
  induction edges generalizing graph with
  | nil => simp [moveEdges]
  | cons edge rest ih =>
    rw [moveEdges, foldl_cons, ← moveEdges, ih, count_add_use, map_cons, count_cons]
    have same : ((graph.modifyNode edge.1 fun node => { node with inputs := node.inputs.set edge.2 new }).usesOf other).count
        reader = (graph.usesOf other).count reader := rfl
    rw [same]
    by_cases here : other = new
    · by_cases user : reader = edge.1
      · simp [here, user]
        omega
      · simp [here, user, Ne.symm user]
    · simp [here]

theorem replace_all_uses_eq {old new : NodeId} (different : old ≠ new) : graph.replaceAllUses old new =
      { graph.moveEdges (graph.useEdges old) new with
        uses := (graph.moveEdges (graph.useEdges old) new).uses.update old fun _ => [] } := by
  rw [replaceAllUses, if_neg different]
  rfl

theorem size_with_uses (uses : SideTable (List NodeId)) : ({ graph with uses := uses } : Graph).size = graph.size := rfl

theorem node_with_uses (uses : SideTable (List NodeId)) (id : NodeId) :
    ({ graph with uses := uses } : Graph).node? id = graph.node? id := rfl

theorem replace_all_uses_size (old new : NodeId) : (graph.replaceAllUses old new).size = graph.size := by
  by_cases same : old = new
  · rw [replaceAllUses, if_pos same]
  · rw [replace_all_uses_eq graph same]
    rw [size_with_uses, move_edges_size]

theorem replace_all_uses_node (mirrored : graph.Mirrored) (old new user : NodeId) :
    (graph.replaceAllUses old new).node? user = (graph.node? user).map fun node =>
      { node with inputs := node.inputs.map fun input => if input = old then new else input } := by
  by_cases same : old = new
  · rw [replaceAllUses, if_pos same]
    have plain : ∀ input, (if input = old then new else input) = input := by
      intro input
      split <;> simp_all
    cases graph.node? user <;> simp [plain]
  · rw [replace_all_uses_eq graph same]
    rw [node_with_uses, move_edges_node]
    cases read : graph.node? user with
    | none => rfl
    | some node =>
      have edge : ∀ index, (user, index) ∈ graph.useEdges old ↔ node.inputs[index]? = some old := by
        intro index
        rw [graph.mirrored_edge mirrored, graph.inputs_of_eq user node read]
      simp only [Option.map_some, Option.some.injEq, Node.mk.injEq, true_and, and_true]
      rw [mapIdx_eq_iff]
      intro index
      rw [getElem?_map]
      cases found : node.inputs[index]? with
      | none => rfl
      | some input => simp [edge, found]

theorem replace_all_uses_mirrored (mirrored : graph.Mirrored) (old new : NodeId) : (graph.replaceAllUses old new).Mirrored := by
  by_cases same : old = new
  · rw [replaceAllUses, if_pos same]
    exact mirrored
  intro definition user
  have inputs : (graph.replaceAllUses old new).inputsOf user =
      (graph.inputsOf user).map fun input => if input = old then new else input := by
    rw [inputsOf, graph.replace_all_uses_node mirrored, inputsOf]
    cases graph.node? user <;> rfl
  have uses : (graph.replaceAllUses old new).usesOf definition =
      if definition = old then [] else (graph.moveEdges (graph.useEdges old) new).usesOf definition := by
    rw [replace_all_uses_eq graph same]
    exact SideTable.read_update _ old definition fun _ => []
  rw [inputs, uses, count_substituted definition same]
  by_cases here : definition = old
  · simp [here]
  · rw [if_neg here, if_neg here, count_move_edges, graph.count_edge_users mirrored, mirrored definition user]

end Graph

end SeaOfNodes
