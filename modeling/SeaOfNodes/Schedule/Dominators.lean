import SeaOfNodes.Schedule.Flow

/-! Dominators of blocks in reverse postorder, by positions in that order. -/

namespace SeaOfNodes

structure DominatorTree where
  parents : Array (Option Nat)
deriving DecidableEq, Repr

namespace DominatorTree

def parent? (tree : DominatorTree) (position : Nat) : Option Nat := tree.parents[position]?.join

def intersect (tree : DominatorTree) (a b : Nat) : Nat :=
  if a = b then a
  else if b < a then
    match tree.parent? a with
    | some parent => if parent < a then tree.intersect parent b else b
    | none => b
  else
    match tree.parent? b with
    | some parent => if parent < b then tree.intersect a parent else a
    | none => a
termination_by a + b

def join (tree : DominatorTree) (predecessors : List Nat) : Option Nat :=
  (predecessors.filter fun position => (tree.parent? position).isSome).foldl
    (fun found position =>
      match found with
      | none => some position
      | some other => some (tree.intersect position other)) none

def update (predecessors : Nat → List Nat) (tree : DominatorTree) (position : Nat) : DominatorTree :=
  match tree.join (predecessors position) with
  | some parent => ⟨tree.parents.setIfInBounds position (some parent)⟩
  | none => tree

def round (predecessors : Nat → List Nat) (tree : DominatorTree) : DominatorTree :=
  ((List.range tree.parents.size).drop 1).foldl (update predecessors) tree

def stabilize (predecessors : Nat → List Nat) : Nat → DominatorTree → Except Fault DominatorTree
  | 0, _ => .error .endless
  | rounds + 1, tree =>
    let next := tree.round predecessors
    if next = tree then .ok tree else stabilize predecessors rounds next

def build (predecessors : Nat → List Nat) (size : Nat) : Except Fault DominatorTree :=
  stabilize predecessors (size * size + size + 1) ⟨(Array.replicate size none).setIfInBounds 0 (some 0)⟩

def dominates (tree : DominatorTree) (a b : Nat) : Bool :=
  if a = b then true
  else
    match tree.parent? b with
    | some parent => if parent < b then tree.dominates a parent else false
    | none => false
termination_by b

def depth (tree : DominatorTree) (position : Nat) : Nat :=
  match tree.parent? position with
  | some parent => if parent < position then tree.depth parent + 1 else 0
  | none => 0
termination_by position

end DominatorTree

end SeaOfNodes
