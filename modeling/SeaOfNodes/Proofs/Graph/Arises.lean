import SeaOfNodes.Proofs.Graph.Built

/-!
Graphs that arise by edits, whatever their order: each edge stands once among the inputs of its user and once among the uses of
its definition.
-/

namespace SeaOfNodes

inductive Graph.Arises : Graph → Prop where
  | created (count : Nat) (graph : Graph) (made : withCapacity count = .ok graph) : Arises graph
  | edited (old new : Graph) (edit : Edit) (answer : Option NodeId) (before : Arises old)
      (applied : edit.apply old = .ok (answer, new)) : Arises new

namespace Graph

theorem arises_mirrored (graph : Graph) (arises : graph.Arises) : graph.Mirrored := by
  induction arises with
  | created count graph made =>
    obtain ⟨_, _, same⟩ := bind_eq_ok.mp made
    cases same
    exact empty_mirrored
  | edited old new edit answer _ applied mirrored =>
    exact yields_ok (fun made => made.2.Mirrored) (answer, new) (apply_mirrored mirrored edit) applied

theorem use_edge_user {id user : NodeId} {inputs : List NodeId} {edge : NodeId × Nat}
    (member : edge ∈ inputs.zipIdx.filterMap fun (input, index) => if input = id then some (user, index) else none) :
    edge.1 = user := by
  obtain ⟨_, _, chosen⟩ := List.mem_filterMap.mp member
  dsimp only at chosen
  split at chosen <;> cases chosen
  rfl

-- The edges of one user have different indices, and those of different users have different users.
theorem use_edges_nodup (graph : Graph) (id : NodeId) : (graph.useEdges id).Nodup := by
  rw [useEdges, List.nodup_flatMap]
  constructor
  · intro user _
    have indices : ((graph.inputsOf user).zipIdx.map Prod.snd).Nodup := by
      rw [List.zipIdx_map_snd]
      exact List.nodup_range'
    refine List.Nodup.filterMap ?_ indices.of_map
    rintro ⟨first, i⟩ ⟨second, j⟩ edge here there
    dsimp only [Option.mem_def] at here there
    split at here <;> cases here
    split at there <;> cases there
    simp_all
  · refine (graph.users_nodup id).imp fun {user other} apart edge here there => apart ?_
    rw [← use_edge_user here, use_edge_user there]

end Graph

theorem use_lists_count_edges (graph : Graph) (arises : graph.Arises) (definition : NodeId) :
    (∀ user, (graph.usesOf definition).count user = (graph.inputsOf user).count definition) ∧
      (graph.useEdges definition).Nodup ∧
      ∀ user index, (user, index) ∈ graph.useEdges definition ↔ (graph.inputsOf user)[index]? = some definition := by
  have mirrored := graph.arises_mirrored arises
  exact ⟨mirrored definition, graph.use_edges_nodup definition, graph.mirrored_edge mirrored definition⟩

theorem built_arises (edits : List Edit) : (Graph.built edits).Arises := by
  have empty : Graph.empty.Arises := .created 0 _ rfl
  have all : Yields (edits.foldlM (fun graph edit => Prod.snd <$> edit.apply graph) Graph.empty) Graph.Arises := by
    refine yields_fold (fun _ => Graph.Arises) empty ?_
    intro _ edit graph _ arises
    refine yields_map (yields_known (apply_mirrored (graph.arises_mirrored arises) edit) ?_)
    exact fun made applied => .edited graph made.2 edit made.1 arises applied
  rw [Graph.built]
  split
  · rename_i graph made
    exact yields_ok _ graph all made
  · exact empty

def tangledSums : List Edit :=
  [.int32Constant 5, .addNode (.machine .int32Add) [2, 2] none, .addNode (.machine .int32Add) [2, 3] none, .replaceInput 3 1 3,
   .kill 4, .insertInput 3 0 4, .replaceAllUses 4 2, .appendInput 3 3]

theorem tangled_sums_counted : (Graph.built tangledSums).Arises ∧
    (Graph.built tangledSums).usesOf 3 = [3, 3] ∧ (Graph.built tangledSums).useEdges 3 = [(3, 2), (3, 3)] ∧
    (∀ user, ((Graph.built tangledSums).usesOf 3).count user = ((Graph.built tangledSums).inputsOf user).count 3) ∧
    ((Graph.built tangledSums).useEdges 3).Nodup := by
  have counted := use_lists_count_edges _ (built_arises tangledSums) 3
  exact ⟨built_arises tangledSums, by decide +kernel, by decide +kernel, counted.1, counted.2.1⟩

end SeaOfNodes
