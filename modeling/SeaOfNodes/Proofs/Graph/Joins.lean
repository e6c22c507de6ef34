import SeaOfNodes.Proofs.Graph.Nodes

/-! Merges, loops and phis: one input for each path, and for a phi its merge after them. -/

namespace SeaOfNodes

open List

variable {count : UInt32} {after : Nat}

def Operator.join? : Operator → Option (UInt32 × Nat)
  | control (.merge count) | control (.loop count) => some (count, 0)
  | phi _ count | effectPhi count => some (count, 1)
  | _ => none

namespace Operator

theorem join_layout (op : Operator) (shape : op.join? = some (count, after)) :
    op.layout = .plain 0 0 count.toNat ∧ after = 0 ∨ op.layout = .plain count.toNat 0 1 ∧ after = 1 ∨
      op.layout = .plain 0 count.toNat 1 ∧ after = 1 := by
  cases op with
  | control kind =>
    cases kind with
    | merge paths | loop paths =>
      cases shape
      exact .inl ⟨rfl, rfl⟩
    | _ => cases shape
  | phi representation paths =>
    cases shape
    exact .inr (.inl ⟨rfl, rfl⟩)
  | effectPhi paths =>
    cases shape
    exact .inr (.inr ⟨rfl, rfl⟩)
  | _ => cases shape

theorem join_total (op : Operator) (shape : op.join? = some (count, after)) : op.layout.total = count.toNat + after := by
  rcases op.join_layout shape with ⟨layout, rfl⟩ | ⟨layout, rfl⟩ | ⟨layout, rfl⟩ <;>
    simp [layout, InputLayout.plain, InputLayout.total, InputLayout.firstControl, InputLayout.firstEffect,
      InputLayout.frameStateIndex]

theorem join_first_control {op : Operator} (shape : op.join? = some (count, 1)) : op.layout.firstControl = count.toNat := by
  rcases op.join_layout shape with ⟨_, impossible⟩ | ⟨layout, _⟩ | ⟨layout, _⟩
  · cases impossible
  · simp [layout, InputLayout.plain, InputLayout.firstControl, InputLayout.firstEffect, InputLayout.frameStateIndex]
  · simp [layout, InputLayout.plain, InputLayout.firstControl, InputLayout.firstEffect, InputLayout.frameStateIndex]

end Operator

namespace Graph

variable {old new : Graph}

def Join (graph : Graph) (id : NodeId) (paths : Nat) (tail : List NodeId) : Prop :=
  ∃ node count values, graph.node? id = some node ∧ node.op.join? = some (count, tail.length) ∧ count.toNat = paths ∧
    node.inputs = values ++ tail ∧ values.length = paths

section

variable {graph : Graph} {id : NodeId} {paths : Nat} {tail : List NodeId}

theorem join_read (joins : graph.Join id paths tail) {node : Node} {count : UInt32} {after : Nat}
    (read : graph.node? id = some node) (shape : node.op.join? = some (count, after)) :
    count.toNat = paths ∧ after = tail.length := by
  obtain ⟨other, paths, values, again, same, rfl, _⟩ := joins
  rw [read] at again
  cases again
  rw [shape] at same
  cases same
  exact ⟨rfl, rfl⟩

theorem join_inputs (joins : graph.Join id paths tail) {node : Node} (read : graph.node? id = some node) :
    node.inputs.length = paths + tail.length ∧ node.inputs.drop paths = tail := by
  obtain ⟨other, _, values, again, _, _, inputs, length⟩ := joins
  rw [read] at again
  cases again
  rw [inputs, length_append, length, ← length, drop_left]
  exact ⟨rfl, rfl⟩

theorem join_unique (joins : graph.Join id paths tail) {more : Nat} {others : List NodeId} (again : graph.Join id more others) :
    paths = more ∧ tail = others := by
  obtain ⟨node, count, _, read, shape, same, _⟩ := joins
  obtain ⟨rfl, length⟩ := join_read again read shape
  subst same
  have first := join_inputs ⟨node, count, _, read, shape, rfl, ‹_›⟩ read
  have second := join_inputs again read
  exact ⟨rfl, first.2.symm.trans second.2⟩

theorem join_lt (joins : graph.Join id paths tail) : id < graph.size := by
  obtain ⟨node, _, _, read, _⟩ := joins
  exact graph.node_lt read

theorem join_push (node : Node) (joins : graph.Join id paths tail) : (graph.push node).2.Join id paths tail := by
  have old := join_lt joins
  obtain ⟨former, count, values, read, rest⟩ := joins
  exact ⟨former, count, values, by rw [node_push, if_neg (old.ne), read], rest⟩

theorem push_join {node : Node} {values : List NodeId} (shape : node.op.join? = some (count, tail.length))
    (inputs : node.inputs = values ++ tail) (length : values.length = count.toNat) :
    (graph.push node).2.Join graph.size values.length tail :=
  ⟨node, count, values, by rw [node_push, if_pos rfl], shape, length.symm, inputs, rfl⟩

theorem join_control {merge : NodeId} (joins : graph.Join id paths [merge]) (control : NodeId)
    (led : graph.controlInput id = .ok control) : control = merge := by
  obtain ⟨node, count, values, read, shape, rfl, inputs, length⟩ := joins
  simp only [controlInput, layout, input, bind_eq_ok, op_eq_ok, node_eq_ok, checked_layout_eq_ok, present_eq_ok] at led
  obtain ⟨_, ⟨_, ⟨_, again, rfl⟩, _, rfl⟩, _, _, _, there, edge⟩ := led
  rw [read] at again there
  cases again
  cases there
  rw [Operator.join_first_control shape, inputs, ← length, add_zero, getElem?_append_right (le_rfl)] at edge
  simpa using edge.symm

end

structure Widened (old new : Graph) (ids : List NodeId) : Prop where
  size : old.size ≤ new.size
  kept : ∀ id paths tail, old.Join id paths tail → new.Join id (paths + ids.count id) tail
  only : ∀ id node count after, new.node? id = some node → node.op.join? = some (count, after) →
    ∃ former before, old.node? id = some former ∧ former.op.join? = some (before, after)

theorem widened_trans {middle : Graph} {first second : List NodeId} (begins : Widened old middle first)
    (goes : Widened middle new second) : Widened old new (first ++ second) where
  size := begins.size.trans goes.size
  kept id paths tail joins := by
    rw [count_append, ← add_assoc]
    exact goes.kept id _ tail (begins.kept id paths tail joins)
  only id node count after read shape := by
    obtain ⟨former, before, there, same⟩ := goes.only id node count after read shape
    exact begins.only id former before after there same

-- The nodes that join paths keep operator and inputs.
theorem widened_alike (size : old.size ≤ new.size) (forward : ∀ id node, old.node? id = some node → node.op.join?.isSome → ∃ next,
      new.node? id = some next ∧ next.op = node.op ∧ next.inputs = node.inputs)
    (backward : ∀ id next, new.node? id = some next → next.op.join?.isSome → ∃ node, old.node? id = some node ∧ node.op = next.op) :
    Widened old new [] where
  size := size
  kept id paths tail joins := by
    obtain ⟨node, count, values, read, shape, same, inputs, length⟩ := joins
    obtain ⟨next, there, op, kept⟩ := forward id node read (by rw [shape]; rfl)
    exact ⟨next, count, values, there, op ▸ shape, same, kept.trans inputs, length⟩
  only id next count after read shape := by
    obtain ⟨node, there, op⟩ := backward id next read (by rw [shape]; rfl)
    exact ⟨node, count, there, op ▸ shape⟩

theorem widened_same (same : ∀ id, new.node? id = old.node? id) (size : old.size ≤ new.size) : Widened old new [] :=
  widened_alike size (fun id node read _ => ⟨node, (same id).trans read, rfl, rfl⟩)
    fun id next read _ => ⟨next, (same id).symm.trans read, rfl⟩

theorem widened_push (graph : Graph) (node : Node) (plain : node.op.join? = none) : Widened graph (graph.push node).2 [] := by
  refine widened_alike (by rw [size_push]; exact Nat.le_succ _) ?_ ?_
  · intro id former read _
    refine ⟨former, ?_, rfl, rfl⟩
    rw [node_push, if_neg (ne_of_lt (graph.node_lt read)), read]
  · intro id next read joins
    rw [node_push] at read
    split at read
    · cases read
      rw [plain] at joins
      cases joins
    · exact ⟨next, read, rfl⟩

theorem widened_restyle (graph : Graph) (id : NodeId) {change : Node → Node} (op : ∀ node, (change node).op = node.op)
    (inputs : ∀ node, (change node).inputs = node.inputs) : Widened graph (graph.modifyNode id change) [] := by
  refine widened_alike (le_of_eq (graph.size_modify id change).symm) ?_ ?_
  · intro other node read _
    rw [node_modify]
    split
    · rename_i same
      rw [← same, read]
      exact ⟨change node, rfl, op node, inputs node⟩
    · exact ⟨node, read, rfl, rfl⟩
  · intro other next read _
    rw [node_modify] at read
    split at read
    · rename_i same
      obtain ⟨node, there, rfl⟩ := Option.map_eq_some_iff.mp read
      exact ⟨node, same ▸ there, (op node).symm⟩
    · exact ⟨next, read, rfl⟩

-- One node is given an input after those of its paths, and its operator counts it.
theorem widened_update {id : NodeId} (input : NodeId) {node wide : Node} {more : UInt32} (read : old.node? id = some node)
    (size : new.size = old.size) (nodes : ∀ other, new.node? other = if other = id then some wide else old.node? other)
    (before : node.op.join? = some (count, after)) (shape : wide.op.join? = some (more, after))
    (sum : more.toNat = count.toNat + 1) (inputs : ∀ values tail, node.inputs = values ++ tail → values.length = count.toNat →
      tail.length = after → wide.inputs = values ++ [input] ++ tail) :
    Widened old new [id] where
  size := size.symm.le
  kept other paths tail joins := by
    by_cases same : other = id
    · subst same
      obtain ⟨rfl, rfl⟩ := join_read joins read before
      obtain ⟨found, _, values, again, _, _, shaped, length⟩ := joins
      rw [read] at again
      cases again
      refine ⟨wide, more, values ++ [input], by rw [nodes, if_pos rfl], shape, ?_, inputs values tail shaped length rfl, ?_⟩
      · rw [sum, count_singleton_self]
      · rw [length_append, length, count_singleton_self]
        rfl
    · rw [count_singleton, if_neg (by simpa using Ne.symm same), add_zero]
      obtain ⟨found, last, values, there, rest⟩ := joins
      exact ⟨found, last, values, by rw [nodes, if_neg same, there], rest⟩
  only other next last final there shaped := by
    rw [nodes] at there
    split at there
    · rename_i same
      cases there
      rw [shape] at shaped
      cases shaped
      exact ⟨node, count, same ▸ read, before⟩
    · exact ⟨next, last, there, shaped⟩

theorem widened_constant (graph : Graph) (value : Constant) : Widened graph (graph.constant value).2 [] := by
  rw [constant]
  split
  · exact widened_same (fun _ => rfl) (le_rfl)
  · -- The table of constants takes no part.
    exact widened_trans (graph.widened_push { op := .constant value, inputs := [] } rfl)
      (widened_same (fun _ => rfl) (le_rfl))

end Graph

end SeaOfNodes
