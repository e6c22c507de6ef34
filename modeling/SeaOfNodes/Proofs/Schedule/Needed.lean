import SeaOfNodes.Proofs.Graph.Nodes
import SeaOfNodes.Proofs.Traversal

namespace SeaOfNodes.Graph

open List

variable {id : NodeId} {unvisited rest found : List NodeId} {graph : Graph}

def Needed (graph : Graph) (id : NodeId) : Prop :=
  Reaches graph.inputsOf start id ∨ Reaches graph.inputsOf stop id

theorem needed_input (graph : Graph) (id input : NodeId) (needed : graph.Needed id) (edge : input ∈ graph.inputsOf id) :
    graph.Needed input :=
  needed.imp (fun path => path.tail edge) (fun path => path.tail edge)

-- Every node that was found has each input found already or waiting on the stack.
structure ReachInvariant (graph : Graph) (unvisited stack found : List NodeId) : Prop where
  covered : ∀ id < graph.size, id ∈ unvisited ∨ id ∈ found
  followed : ∀ id ∈ found, ∀ input ∈ graph.inputsOf id, input ∈ found ∨ input ∈ stack
  needed : ∀ id, id ∈ found ∨ id ∈ stack → graph.Needed id

theorem reach_enter (graph : Graph) {node : Node} (inv : ReachInvariant graph unvisited (id :: rest) found)
    (read : graph.node? id = some node) : ReachInvariant graph (unvisited.erase id) (node.inputs ++ rest) (id :: found) := by
  have own := graph.inputs_of_eq id node read
  refine ⟨?_, ?_, ?_⟩
  · intro other inside
    by_cases same : other = id
    · exact .inr (same ▸ mem_cons_self)
    · exact (inv.covered other inside).imp (mem_erase_of_ne same).mpr (mem_cons_of_mem id)
  · intro other member input edge
    rcases mem_cons.mp member with same | earlier
    · rw [same, own] at edge
      exact .inr (mem_append_left rest edge)
    · rcases inv.followed other earlier input edge with done | waiting
      · exact .inl (mem_cons_of_mem id done)
      · rcases mem_cons.mp waiting with here | later
        · exact .inl (here ▸ mem_cons_self)
        · exact .inr (mem_append_right node.inputs later)
  · have here := inv.needed id (.inr mem_cons_self)
    rintro other (member | member)
    · rcases mem_cons.mp member with same | earlier
      · exact same ▸ here
      · exact inv.needed other (.inl earlier)
    · rcases mem_append.mp member with input | later
      · exact graph.needed_input id other here (own ▸ input)
      · exact inv.needed other (.inr (mem_cons_of_mem id later))

theorem reach_skip (graph : Graph) (inv : ReachInvariant graph unvisited (id :: rest) found) (seen : id ∈ found) :
    ReachInvariant graph unvisited rest found := by
  refine ⟨inv.covered, ?_, ?_⟩
  · intro other member input edge
    rcases inv.followed other member input edge with done | waiting
    · exact .inl done
    · rcases mem_cons.mp waiting with here | later
      · exact .inl (here ▸ seen)
      · exact .inr later
  · rintro other (member | member)
    · exact inv.needed other (.inl member)
    · exact inv.needed other (.inr (mem_cons_of_mem id member))

-- The search finds all that it began with and what that depends on, unless a node that it needs is missing.
theorem reach_run (graph : Graph) {stack : List NodeId} (inv : ReachInvariant graph unvisited stack found)
    (exist : ∀ id ∈ found, id < graph.size) :
    (∃ result rest, graph.reach unvisited stack found = .ok result ∧ ReachInvariant graph rest [] result ∧
        (∀ id ∈ result, id < graph.size) ∧ ∀ id, id ∈ found ∨ id ∈ stack → id ∈ result) ∨
      graph.reach unvisited stack found = .error .assertion ∧ ∃ id, graph.Needed id ∧ ¬ id < graph.size := by
  fun_induction reach graph unvisited stack found with
  | case1 unvisited found => exact .inl ⟨found, unvisited, rfl, inv, exist, by simp⟩
  | case2 unvisited found id rest missing =>
    refine .inr ⟨rfl, id, inv.needed id (.inr mem_cons_self), fun inside => ?_⟩
    obtain ⟨node, read⟩ := graph.node_of_lt id inside
    rw [missing] at read
    cases read
  | case3 unvisited found id rest node read member ih =>
    refine (ih (graph.reach_enter inv read) (forall_mem_cons.mpr ⟨graph.node_lt read, exist⟩)).imp_left ?_
    rintro ⟨result, left, run, final, bounded, kept⟩
    refine ⟨result, left, run, final, bounded, ?_⟩
    rintro other (before | waiting)
    · exact kept other (.inl (mem_cons_of_mem id before))
    · rcases mem_cons.mp waiting with here | later
      · exact kept other (.inl (here ▸ mem_cons_self))
      · exact kept other (.inr (mem_append_right node.inputs later))
  | case4 unvisited found id rest node read absent ih =>
    have seen : id ∈ found := (inv.covered id (graph.node_lt read)).resolve_left absent
    refine (ih (graph.reach_skip inv seen) exist).imp_left ?_
    rintro ⟨result, left, run, final, bounded, kept⟩
    refine ⟨result, left, run, final, bounded, ?_⟩
    rintro other (before | waiting)
    · exact kept other (.inl before)
    · rcases mem_cons.mp waiting with here | later
      · exact kept other (.inl (here ▸ seen))
      · exact kept other (.inr later)

theorem reach_start : ReachInvariant graph (range graph.size) [start, stop] [] := by
  refine ⟨?_, ?_, ?_⟩
  · intro id inside
    exact .inl (mem_range.mpr inside)
  · intro id member
    cases member
  · rintro id (member | member)
    · cases member
    · rcases mem_cons.mp member with first | second
      · exact .inl (first ▸ .refl)
      · exact .inr (mem_singleton.mp second ▸ .refl)

theorem reach_closed (graph : Graph) (final : ReachInvariant graph unvisited [] found)
    (roots : ∀ root ∈ [start, stop], root ∈ found) (id : NodeId) (needed : graph.Needed id) : id ∈ found := by
  have closed : ∀ root last, root ∈ found → Reaches graph.inputsOf root last → last ∈ found := by
    intro root last first path
    induction path with
    | refl => exact first
    | @tail middle last _ edge ih => exact (final.followed middle ih last edge).resolve_right (by simp)
  rcases needed with path | path
  · exact closed start id (roots start (by simp)) path
  · exact closed stop id (roots stop (by simp)) path

theorem schedulable_cases : (∃ ids, graph.schedulable = .ok ids ∧ ids.Nodup ∧ (∀ id, id ∈ ids ↔ graph.Needed id ∧ id ≠ stop) ∧
        ∀ id, graph.Needed id → id < graph.size) ∨
      graph.schedulable = .error .assertion ∧ ∃ id, graph.Needed id ∧ ¬ id < graph.size := by
  rcases graph.reach_run graph.reach_start (by simp) with ⟨found, rest, run, final, bounded, kept⟩ | ⟨run, missing⟩
  · have exact : ∀ id, id ∈ found ↔ graph.Needed id := by
      intro id
      constructor
      · intro member
        exact final.needed id (.inl member)
      · exact graph.reach_closed final (fun root first => kept root (.inr first)) id
    have exist : ∀ id, graph.Needed id → id < graph.size := fun id needed => bounded id ((exact id).mpr needed)
    refine .inl ⟨_, by rw [schedulable, run]; rfl, nodup_range.filter _, fun id => ?_, exist⟩
    simp only [mem_filter, mem_range, Bool.and_eq_true, decide_eq_true_eq, exact]
    constructor
    · rintro ⟨_, needed, different⟩
      exact ⟨needed, different⟩
    · rintro ⟨needed, different⟩
      exact ⟨exist id needed, needed, different⟩
  · exact .inr ⟨by rw [schedulable, run]; rfl, missing⟩

theorem schedulable_ends (graph : Graph) (exist : ∀ id, graph.Needed id → id < graph.size) :
    ∃ ids, graph.schedulable = .ok ids ∧ ids.Nodup ∧ ∀ id, id ∈ ids ↔ graph.Needed id ∧ id ≠ stop := by
  rcases graph.schedulable_cases with ⟨ids, gathered, distinct, members, _⟩ | ⟨_, id, needed, missing⟩
  · exact ⟨ids, gathered, distinct, members⟩
  · exact absurd (exist id needed) missing

theorem schedulable_exact (graph : Graph) {ids : List NodeId} (gathered : graph.schedulable = .ok ids) :
    ids.Nodup ∧ (∀ id, id ∈ ids ↔ graph.Needed id ∧ id ≠ stop) ∧ ∀ id, graph.Needed id → id < graph.size := by
  rcases graph.schedulable_cases with ⟨other, again, facts⟩ | ⟨failed, _⟩
  · cases gathered.symm.trans again
    exact facts
  · cases gathered.symm.trans failed

end SeaOfNodes.Graph
