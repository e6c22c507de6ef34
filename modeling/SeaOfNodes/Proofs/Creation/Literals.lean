import SeaOfNodes.Proofs.Creation.Copies

/-! Inline copies of literals: the nodes that are added for one build the tree of its boilerplate. -/

namespace SeaOfNodes

open List

def Plan.carryOut (plan : Plan) (limit : UInt32) : Build NodeId := do
  let progress ← plan.actions.foldlM (plan.perform limit) { effect := plan.effect }
  (← plan.openRegion limit progress plan.last).finish

theorem carry_out_ok {plan : Plan} {limit : UInt32} {final : Plan.Progress} {s t : Workspace}
    (run : (plan.actions ++ [Action.region plan.last]).foldlM (plan.perform limit) { effect := plan.effect } s = .ok final t) :
    plan.carryOut limit s = .ok final.effect t := by
  rw [foldlM_append, runs_bind] at run
  obtain ⟨progress, u, early, run⟩ := run
  rw [foldlM_cons, runs_bind] at run
  obtain ⟨after, v, late, run⟩ := run
  cases run
  obtain ⟨a, w, opened, late⟩ := runs_bind.mp late
  obtain ⟨ends, x, finished, late⟩ := runs_bind.mp late
  cases late
  exact runs_bind.mpr ⟨progress, u, early, runs_bind.mpr ⟨a, w, opened, finished⟩⟩

-- The nodes added to a graph are constants and the path of effects to `copy`.
def Graph.BuildsTree (old new : Graph) (effect copy : NodeId) (tree : Tree) : Prop :=
  ∃ path memory word visited, new.Follows effect path copy ∧ (∀ id ∈ path, old.size ≤ id) ∧
    (∀ id node, old.size ≤ id → new.node? id = some node → id ∈ path ∨ ∃ value, node.op = .constant value) ∧
    path.foldlM new.step? {} = some memory ∧ new.word? memory copy = some word ∧
    SeaOfNodes.Stands memory.objects tree word visited ∧ visited.Nodup

theorem carry_out_builds (plan : Plan) (limit : UInt32) (s : Workspace) (interned : s.graph.Interned) (contents : Contents)
    (trees : List Tree) (makes : Makes limit {} plan.actions contents) (prepared : Prepared limit {} contents plan.last trees) :
    ∃ copy t, plan.carryOut limit s = .ok copy t ∧ s.graph.BuildsTree t.graph plan.effect copy (.object trees) := by
  obtain ⟨small, words, visited, lays, stand, once, inside⟩ := prepared
  let after : Contents := { objects := contents.objects ++ [words.map some]
                            values := contents.values ++ [.address contents.objects.length] }
  have all : Makes limit {} (plan.actions ++ [.region plan.last]) after :=
    makes_append makes ⟨after, ⟨small, words, lays, rfl⟩, rfl⟩
  obtain ⟨final, t, run, _⟩ := ends_total (@ends_perform_all True s plan limit _ { effect := plan.effect }
    (.inl (makes_small all)) (makes_feasible all))
  obtain ⟨mades, added, done⟩ := @perform_all_adds True s t (fun _ => interned) plan limit _ final _ run
  have follows := actions_follow done all
  obtain ⟨memory, runs, objects, named, counted⟩ := @actions_run t.graph {} limit plan.control _ mades _ final {} after done all
    (fun index id word _ absent => by simp at absent) rfl rfl added.sorted (by simp)
  -- The value of the last action is the end of the last region.
  obtain ⟨_, late, middle, _, _, ends⟩ := actions_at_append done
  have word : t.graph.word? memory final.effect = some (.address contents.objects.length) := by
    cases late with
    | nil => exact ends.elim
    | cons made more =>
      obtain ⟨_, ⟨_, _, copy, _, rfl, _⟩, rest⟩ := ends
      cases more with
      | cons other others => exact rest.elim
      | nil =>
        cases rest
        rw [Array.size_push, length_append, length_singleton, Nat.add_right_cancel_iff] at counted
        refine named middle.results.size copy _ Array.getElem?_push_size ?_
        rw [counted, getElem?_concat_length]
  have grown : contents.objects <+: memory.objects := objects ▸ prefix_append _ _
  refine ⟨final.effect, t, carry_out_ok run, mades.flatten, memory, _, contents.objects.length :: visited,
    follows, fun id member => (added.inside id member).1,
    fun id node late read => (added.others id node late read).imp_right (Exists.imp fun _ => And.left), runs, word, ?_, ?_⟩
  · refine .object _ trees words visited ?_ (stand_all_grow grown stand)
    rw [objects, getElem?_concat_length]
  · exact nodup_cons.mpr ⟨fun member => lt_irrefl _ (inside _ member).2, once⟩

theorem literal_copy_builds_unfolding (c : CreationContext) (generation : Generation) (depth budget rest : Nat)
    (boilerplate : ObjectRef) (checked : c.checkLiteral depth boilerplate budget = .ok rest) (mapped : c.WellMapped boilerplate)
    (solid : c.Solid boilerplate) (s : Workspace) (interned : s.graph.Interned) (effect control : NodeId) :
    ∃ last actions tree copy t, (c.copyLiteral generation depth boilerplate).run #[] = .ok (last, actions) ∧
      c.unfolding depth boilerplate = some tree ∧
      Plan.carryOut { effect := effect, control := control, actions := actions.toList, last := last, ending := .replace }
        c.config.maxObjectSize s = .ok copy t ∧
      s.graph.BuildsTree t.graph effect copy tree := by
  have copyable := c.check_literal_copyable MapInfo.WellSized checked mapped
  obtain ⟨last, actions, contents, run, makes, _, trees, unfolds, prepared⟩ :=
    c.copy_literal_delivers generation copyable solid {} #[] rfl
  obtain ⟨copy, t, carried, builds⟩ := carry_out_builds
    { effect := effect, control := control, actions := actions.toList, last := last, ending := .replace } _ s interned contents trees
    makes prepared
  exact ⟨last, actions, .object trees, copy, t, run, unfolds, carried, builds⟩

section

theorem mapped_check (c : CreationContext) (sized : MapInfo → Prop) [DecidablePred sized] (boilerplate : ObjectRef)
    (checks : c.heap.objects.toList.all (fun
      | .jsObject object => (c.heap.map? object.map).all fun map => sized map
      | _ => true) = true) : c.Mapped sized boilerplate := by
  intro inner object map _ there known
  rw [Snapshot.plainObject?] at there
  split at there
  · rename_i found read
    cases there
    have here := all_eq_true.mp checks _ (Array.mem_toList_iff.mpr (Array.mem_of_getElem? read))
    simpa [known] using here
  · cases there

theorem solid_check (c : CreationContext) (boilerplate : ObjectRef) (checks : c.heap.objects.toList.all (fun
      | .fixedDoubleArray values => some ⟨Layout.holeBits⟩ ∉ values
      | _ => true) = true) : c.Solid boilerplate := by
  intro inner object values _ _ read
  have here := all_eq_true.mp checks _ (Array.mem_toList_iff.mpr (Array.mem_of_getElem? read))
  exact of_decide_eq_true here

def CreationContext.withSharedElement : CreationContext :=
  let half : Double := ⟨0x3FE0000000000000⟩
  let number : Double := ⟨0x3FF8000000000000⟩
  { heap := ⟨Snapshot.initial.objects ++
      #[.map { instanceType := .jsArray, instanceSize := 32, elementsKind := .holeyDouble },
        .fixedDoubleArray [some half, none],
        .jsObject ⟨⟨32⟩, ⟨33⟩, 0, [], some (.small 2)⟩,
        .heapNumber number,
        .map { instanceType := .jsObject, instanceSize := 48, inObjectProperties := 3
               properties := [⟨"a", .field .double 0⟩, ⟨"b", .field .smi 1⟩] },
        .fixedArray Root.fixedArrayMap [some (.object ⟨34⟩), none, some (.object ⟨34⟩)],
        .jsObject ⟨⟨36⟩, ⟨37⟩, 0, [.object ⟨35⟩, .object Root.uninitialized], none⟩]⟩
    config := {} }

theorem shared_element_copied : CreationContext.withSharedElement.checkLiteral 2 ⟨38⟩ 4 = .ok 0 ∧ ∃ last actions tree copy t,
      (CreationContext.withSharedElement.copyLiteral .young 2 ⟨38⟩).run #[] = .ok (last, actions) ∧
      CreationContext.withSharedElement.unfolding 2 ⟨38⟩ = some tree ∧
      Plan.carryOut { effect := 0, control := 0, actions := actions.toList, last := last, ending := .replace }
        CreationContext.withSharedElement.config.maxObjectSize (.recording .empty) = .ok copy t ∧
      Graph.empty.BuildsTree t.graph 0 copy tree := by
  have checked : CreationContext.withSharedElement.checkLiteral 2 ⟨38⟩ 4 = .ok 0 := by decide +kernel
  exact ⟨checked, literal_copy_builds_unfolding _ .young 2 4 0 ⟨38⟩ checked (mapped_check _ MapInfo.WellSized _ (by decide +kernel))
    (solid_check _ _ (by decide +kernel)) (.recording .empty) (interned_check _ (by decide +kernel)) 0 0⟩

instance (graph : Graph) (effect : NodeId) (path : List NodeId) (last : NodeId) : Decidable (graph.Follows effect path last) :=
  match path with
  | [] => inferInstanceAs (Decidable (effect = last))
  | id :: rest =>
    have : Decidable (graph.Follows id rest last) := instDecidableFollows graph id rest last
    inferInstanceAs (Decidable (_ ∧ _))

theorem follows_last {graph : Graph} {effect last id : NodeId} {path : List NodeId}
    (follows : graph.Follows effect (path ++ [id]) last) :
    id = last ∧ ∃ before, graph.Follows effect path before ∧ graph.effectInput id = .ok before := by
  induction path generalizing effect with
  | nil => exact ⟨follows.2, effect, rfl, follows.1⟩
  | cons first rest ih =>
    obtain ⟨same, before, goes, led⟩ := ih follows.2
    exact ⟨same, before, ⟨follows.1, goes⟩, led⟩

-- Read backwards, a path goes on until it comes to the effect that it starts from.
theorem follows_unique {graph : Graph} {effect last : NodeId} {path other : List NodeId} (first : graph.Follows effect path last)
    (second : graph.Follows effect other last) (outside : effect ∉ path) (away : effect ∉ other) : path = other := by
  induction path using reverseRecOn generalizing other last with
  | nil =>
    cases other using reverseRecOn with
    | nil => rfl
    | append_singleton front id =>
      obtain ⟨rfl, _⟩ := follows_last second
      have same : effect = id := first
      exact absurd (mem_append_right front (mem_singleton.mpr same)) away
  | append_singleton front id ih =>
    obtain ⟨rfl, before, goes, led⟩ := follows_last first
    cases other using reverseRecOn with
    | nil =>
      have same : effect = id := second
      exact absurd (mem_append_right front (mem_singleton.mpr same)) outside
    | append_singleton rest next =>
      obtain ⟨rfl, middle, begins, again⟩ := follows_last second
      cases led.symm.trans again
      rw [ih goes begins (fun member => outside (by simp [member])) fun member => away (by simp [member])]

theorem stands_constant (objects : List (List (Option Word))) (value : Constant) (word : Word) (visited : List Nat)
    (stands : Stands objects (.constant value) word visited) : word = .constant value := by
  cases stands
  rfl

theorem stands_object (objects : List (List (Option Word))) (trees : List Tree) (address : Nat) (visited : List Nat)
    (stands : Stands objects (.object trees) (.address address) visited) :
    ∃ words rest, objects[address]? = some (words.map some) ∧ StandAll objects trees words rest := by
  cases stands with
  | object _ _ words rest read contents => exact ⟨words, rest, read, contents⟩

theorem stand_all_get (objects : List (List (Option Word))) (trees : List Tree) (words : List Word) (visited : List Nat)
    (stand : StandAll objects trees words visited) (index : Nat) (tree : Tree) (word : Word) (found : trees[index]? = some tree)
    (held : words[index]? = some word) : ∃ part, Stands objects tree word part := by
  induction trees generalizing words visited index with
  | nil => cases found
  | cons first trees ih =>
    cases stand with
    | cons _ _ _ words part rest here there =>
      cases index with
      | zero =>
        cases found
        cases held
        exact ⟨part, here⟩
      | succ index => exact ih words rest there index found held

theorem copied_check (c : CreationContext) (depth : Nat) (boilerplate : ObjectRef) (s : Workspace) (test : NodeId → Workspace → Bool)
    (checks : (match (c.copyLiteral .young depth boilerplate).run #[] with
      | .error _ => false
      | .ok (last, actions) =>
        match Plan.carryOut ⟨0, 0, actions.toList, last, .replace⟩ c.config.maxObjectSize s with
        | .error _ _ => false
        | .ok copy t => test copy t) = true) :
    ∃ last actions copy t, (c.copyLiteral .young depth boilerplate).run #[] = .ok (last, actions) ∧
      Plan.carryOut ⟨0, 0, actions.toList, last, .replace⟩ c.config.maxObjectSize s = .ok copy t ∧ test copy t := by
  cases drafted : (c.copyLiteral .young depth boilerplate).run #[] with
  | error failure =>
    rw [drafted] at checks
    cases checks
  | ok result =>
    obtain ⟨last, actions⟩ := result
    rw [drafted] at checks
    dsimp only at checks
    cases carried : Plan.carryOut ⟨0, 0, actions.toList, last, .replace⟩ c.config.maxObjectSize s with
    | error fault t =>
      rw [carried] at checks
      cases checks
    | ok copy t =>
      rw [carried] at checks
      exact ⟨last, actions, copy, t, rfl, carried, checks⟩

def CreationContext.withEmptyObject : CreationContext :=
  { heap := (Snapshot.initial.add (.jsObject ⟨NativeContext.objectLiteralMap, Root.emptyFixedArray, 0, [], none⟩)).2, config := {} }

def overwrittenFiller : List Edit :=
  [.constant (.constant (.heap Root.undefined)), .constant (.constant (.heap Root.onePointerFillerMap)),
   .changeOp 3 (.constant (.heap Root.undefined))]

theorem overwritten_filler_breaks_copy :
    CreationContext.withEmptyObject.checkLiteral 1 ⟨32⟩ 0 = .ok 0 ∧ CreationContext.withEmptyObject.WellMapped ⟨32⟩ ∧
      CreationContext.withEmptyObject.Solid ⟨32⟩ ∧ ∃ last actions tree copy t,
        (CreationContext.withEmptyObject.copyLiteral .young 1 ⟨32⟩).run #[] = .ok (last, actions) ∧
        CreationContext.withEmptyObject.unfolding 1 ⟨32⟩ = some tree ∧
        Plan.carryOut { effect := 0, control := 0, actions := actions.toList, last := last, ending := .replace }
          CreationContext.withEmptyObject.config.maxObjectSize (.recording (.built overwrittenFiller)) = .ok copy t ∧
        ¬ (Graph.built overwrittenFiller).BuildsTree t.graph 0 copy tree := by
  refine ⟨by decide +kernel, mapped_check _ MapInfo.WellSized _ (by decide +kernel), solid_check _ _ (by decide +kernel), ?_⟩
  let path : List NodeId := [5, 7, 9, 10, 11, 12, 13, 14, 15, 16]
  let empty : Word := .constant (.heap Root.emptyFixedArray)
  let undefined : Word := .constant (.heap Root.undefined)
  let words : List Word := [.constant (.heap NativeContext.objectLiteralMap), empty, empty, undefined, undefined, undefined, undefined]
  let memory : Memory := { objects := [words.map some], names := [(16, 0), (7, 0)] }
  obtain ⟨last, actions, copy, t, drafted, carried, found⟩ := copied_check .withEmptyObject 1 ⟨32⟩ (.recording (.built overwrittenFiller))
    (fun copy t => t.graph.Follows 0 path copy ∧ path.foldlM t.graph.step? {} = some memory ∧
      t.graph.word? memory copy = some (.address 0)) (by decide +kernel)
  obtain ⟨follows, runs, held⟩ := of_decide_eq_true found
  let filler : Tree := .heap Root.onePointerFillerMap
  let tree : Tree := .object [.heap NativeContext.objectLiteralMap, .heap Root.emptyFixedArray, .heap Root.emptyFixedArray,
    filler, filler, filler, filler]
  refine ⟨last, actions, tree, copy, t, drafted, rfl, carried, ?_⟩
  rintro ⟨other, after, word, visited, again, inside, _, done, known, stands, _⟩
  have away : 0 ∉ other := fun member => absurd (inside 0 member) (by decide +kernel)
  obtain rfl := follows_unique follows again (by decide) away
  cases runs.symm.trans done
  cases held.symm.trans known
  -- The fourth word says undefined, where the tree has a filler.
  obtain ⟨others, rest, read, contents⟩ := stands_object _ _ _ _ stands
  have same : words = others := map_injective_iff.mpr (Option.some_injective _) (Option.some.inj read)
  obtain ⟨_, fourth⟩ := stand_all_get _ _ _ rest contents 3 filler undefined rfl (same ▸ rfl)
  have clash : Word.constant (.heap Root.undefined) = .constant (.heap Root.onePointerFillerMap) := stands_constant _ _ _ _ fourth
  exact absurd clash (by decide)

end

end SeaOfNodes
