import SeaOfNodes.Proofs.Creation.Path
import SeaOfNodes.Proofs.Lowering.Steady

/-! Where the driver stops. -/

namespace SeaOfNodes

section

def arrayOfResult : List Edit :=
  [.constant (.constant (.heap Root.undefined)), .addNode (.create (.array 1 (some ⟨32⟩))) [2, 2, 2, 2, 2, 0, 0] none,
   .addNode (.create .iterResult) [2, 2, 2, 0, 0] none, .replaceInput 3 2 4, .replaceInput 3 5 4, .replaceInput 3 6 4,
   .addNode (.control (.ret 1)) [2, 3, 3, 3] none, .mergeToEnd 5]

def runTwice (reducers : List Reducer) : Build (Graph × ReductionStats × ReductionStats) := do
  let first ← Reducer.run reducers
  let graph := (← get).graph
  let second ← Reducer.run reducers
  return (graph, first, second)

theorem run_twice_cases {reducers : List Reducer} {s u : Workspace} {graph : Graph} {first second : ReductionStats}
    (run : runTwice reducers s = .ok (graph, first, second) u) :
    ∃ t, Reducer.run reducers s = .ok first t ∧ t.graph = graph ∧ Reducer.run reducers t = .ok second u := by
  obtain ⟨_, t, begun, run⟩ := runs_bind.mp run
  obtain ⟨_, _, read, run⟩ := runs_bind.mp run
  obtain ⟨rfl, rfl⟩ := runs_get.mp read
  obtain ⟨_, _, ended, run⟩ := runs_bind.mp run
  obtain ⟨same, rfl⟩ := runs_pure.mp run
  cases same
  exact ⟨t, begun, rfl, ended⟩

-- The array is declined first, since as far as is known its argument may be a number.
theorem array_of_result_runs :
    ∃ stats t again u, Reducer.run [.inlineCreation .pretenuring] (.recording (.built arrayOfResult)) = .ok stats t ∧
      t.graph.verify = .ok () ∧ t.graph.HasLive 3 ∧
      ¬ (∀ id, t.graph.HasLive id → Reducer.Refuses [.inlineCreation .pretenuring] t.graph id) ∧
      Reducer.run [.inlineCreation .pretenuring] t = .ok again u ∧ again.reductions = 1 := by
  obtain ⟨⟨graph, stats, again⟩, u, run, found⟩ := runs_check (runTwice [.inlineCreation .pretenuring])
    (.recording (.built arrayOfResult)) (fun found _ => found.1.isLive 3 && found.1.verify.toOption == some () &&
      found.2.2.reductions == 1) (by decide +kernel)
  simp only [Bool.and_eq_true, beq_iff_eq] at found
  obtain ⟨⟨live, verified⟩, more⟩ := found
  obtain ⟨t, first, rfl, second⟩ := run_twice_cases run
  have lives := (t.graph.is_live_iff 3).mp live
  refine ⟨stats, t, again, u, first, ok_of_to_option _ _ verified, lives, fun settled => ?_, second, more⟩
  have steady := List.forall_mem_singleton.mpr (inline_steady .pretenuring)
  obtain ⟨_, _, rerun, none⟩ := (Reducer.run_idle_iff steady t).mpr settled
  cases rerun.symm.trans second
  rw [more] at none
  cases none

end

end SeaOfNodes
