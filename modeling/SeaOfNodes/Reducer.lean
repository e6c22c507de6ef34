import SeaOfNodes.Creation.Call
import SeaOfNodes.Creation.Inline
import SeaOfNodes.Data.BitSet

/-! Local reductions, and a driver that applies a list of them until none makes progress. -/

namespace SeaOfNodes

structure Reducer where
  name : String
  reduce : NodeId → Build Reduction

namespace Reducer

def inlineCreation (c : CreationContext) : Reducer := ⟨"create-lowering", c.reduce⟩

def creationCall (heap : Snapshot) : Reducer := ⟨"generic-lowering", CreationCall.reduce heap⟩

def foldAdd : Reducer where
  name := "fold-add"
  reduce id := do
    if (← Build.query fun graph => graph.op id) ≠ .machine .int32Add then return .unchanged
    let left ← Build.query fun graph => do graph.node (← graph.valueInput id 0)
    let right ← Build.query fun graph => do graph.node (← graph.valueInput id 1)
    match left.int32?, right.int32? with
    | some left, some right => return .replaced (← Build.constant (.int32 (left + right)))
    | _, _ => return .unchanged

end Reducer

structure ReducerTally where
  name : String
  changes : Nat := 0
  replacements : Nat := 0
deriving DecidableEq, Repr

structure ReductionStats where
  visited : Nat := 0
  changed : Nat := 0
  replaced : Nat := 0
  initialSize : Nat
  finalSize : Nat
  reducers : List ReducerTally
deriving DecidableEq, Repr

namespace ReductionStats

def reductions (stats : ReductionStats) : Nat := stats.changed + stats.replaced

def nodesAdded (stats : ReductionStats) : Nat := stats.finalSize - stats.initialSize

def count (stats : ReductionStats) (index : Nat) : Reduction → ReductionStats
  | .unchanged => stats
  | .changed _ =>
    { stats with
      changed := stats.changed + 1
      reducers := stats.reducers.modify index fun tally => { tally with changes := tally.changes + 1 } }
  | .replaced _ =>
    { stats with
      replaced := stats.replaced + 1
      reducers :=
        stats.reducers.modify index fun tally => { tally with replacements := tally.replacements + 1 } }

def append (first second : ReductionStats) : ReductionStats :=
  { visited := first.visited + second.visited
    changed := first.changed + second.changed
    replaced := first.replaced + second.replaced
    initialSize := first.initialSize
    finalSize := second.finalSize
    reducers := first.reducers ++ second.reducers }

end ReductionStats

namespace Reducer

def firstSuccess (reducers : List Reducer) (id : NodeId) : Nat → Build (Option (Nat × Reducer × Reduction)) :=
  match reducers with
  | [] => fun _ => return none
  | reducer :: rest => fun index => do
    match ← reducer.reduce id with
    | .unchanged => firstSuccess rest id (index + 1)
    | reduction => return some (index, reducer, reduction)

def settle (reducer : Reducer) (id : NodeId) : Reduction → Build NodeId
  | .unchanged => return id
  | .changed changed => do
    let op ← Build.query fun graph => graph.op changed
    Build.note (.changed reducer.name id op)
    return changed
  | .replaced replacement => do
    Build.note (.replaced reducer.name id replacement)
    if replacement ≠ id then
      Build.change fun graph => (graph.replaceAllUses id replacement).kill id
    return replacement

def enqueue (ids : List NodeId) (worklist : List NodeId) (queued : BitSet) : List NodeId × BitSet :=
  let (fresh, queued) := ids.foldl (fun (fresh, queued) id =>
    if queued.contains id then (fresh, queued) else (id :: fresh, queued.insert id)) ([], queued)
  (worklist ++ fresh.reverse, queued)

def sweep (reducers : List Reducer) (resume : Option (List NodeId → BitSet → ReductionStats → Build ReductionStats)) :
    List NodeId → BitSet → ReductionStats → Build ReductionStats
  | [], _, stats => return stats
  | id :: rest, queued, stats => do
    let queued := queued.erase id
    let size := (← get).graph.size
    if (← get).graph.isLive id then
      let stats := { stats with visited := stats.visited + 1 }
      match ← firstSuccess reducers id 0 with
      | none => sweep reducers resume rest queued stats
      | some (index, reducer, reduction) =>
        match resume with
        | none => throw .endless
        | some resume =>
          let again ← reducer.settle id reduction
          let fresh := (List.range ((← get).graph.size - size)).map (size + ·)
          let (rest, queued) := enqueue (again :: fresh) rest queued
          resume rest queued (stats.count index reduction)
    else sweep reducers resume rest queued stats

def drain (reducers : List Reducer) : Nat → List NodeId → BitSet → ReductionStats → Build ReductionStats
  | 0 => sweep reducers none
  | limit + 1 => sweep reducers (some (drain reducers limit))

def run (reducers : List Reducer) : Build ReductionStats := do
  let graph := (← get).graph
  let live := graph.liveIds
  let queued := live.foldl (fun queued id => queued.insert id) BitSet.empty
  let tallies := reducers.map fun reducer => { name := reducer.name }
  let stats ← drain reducers graph.size live queued
    { initialSize := graph.size, finalSize := graph.size, reducers := tallies }
  return { stats with finalSize := (← get).graph.size }

end Reducer

def lowerCreations (c : CreationContext) : Build ReductionStats := do
  let inline ← Reducer.run [.inlineCreation c]
  let calls ← Reducer.run [.creationCall c.heap]
  Build.note (.creationsLowered inline.reductions calls.reductions (calls.finalSize - inline.initialSize))
  return inline.append calls

end SeaOfNodes
