namespace SeaOfNodes

def stackWeight : List (Nat × List Nat) → Nat
  | [] => 0
  | (_, waiting) :: rest => waiting.length + 1 + stackWeight rest

def depthFirst (successors : Nat → List Nat) (unvisited : List Nat) (stack : List (Nat × List Nat))
    (left : List Nat) : List Nat :=
  match stack with
  | [] => left
  | (vertex, []) :: rest => depthFirst successors unvisited rest (vertex :: left)
  | (vertex, next :: more) :: rest =>
    if next ∈ unvisited then
      depthFirst successors (unvisited.erase next) ((next, successors next) :: (vertex, more) :: rest) left
    else depthFirst successors unvisited ((vertex, more) :: rest) left
termination_by (unvisited.length, stackWeight stack)
decreasing_by
  · apply Prod.Lex.right
    simp [stackWeight]
  · apply Prod.Lex.left
    rename_i member
    have := List.length_erase_of_mem member
    have := List.length_pos_of_mem member
    omega
  · apply Prod.Lex.right
    simp [stackWeight]

def reversePostorder (successors : Nat → List Nat) (size root : Nat) : List Nat :=
  depthFirst successors ((List.range size).erase root) [(root, successors root)] []

end SeaOfNodes
