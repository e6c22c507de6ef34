import SeaOfNodes.Proofs.Creation.Boilerplates
import SeaOfNodes.Proofs.Creation.Named
import SeaOfNodes.Proofs.Creation.Tidy
import SeaOfNodes.Proofs.Graph.Reads

/-! Every plan for an inline creation prepares its values first and then fills one region after the other. -/

namespace SeaOfNodes

open List

theorem map_m_length {α β : Type} {items : List α} {step : α → Except Fault β} {results : List β}
    (run : items.mapM step = .ok results) : results.length = items.length := by
  induction items generalizing results with
  | nil =>
    cases run
    rfl
  | cons item rest ih =>
    rw [mapM_cons] at run
    obtain ⟨first, _, run⟩ := bind_eq_ok.mp run
    obtain ⟨further, later, same⟩ := bind_eq_ok.mp run
    cases same
    exact congrArg Nat.succ (ih later)

namespace Operator

def checks : Operator → Bool
  | .checkSmi | .checkNumber | .newArgumentsElements => true
  | _ => false

def computes : Operator → Bool
  | .silenceNaN | .argumentsFrame | .argumentsLength .. => true
  | _ => false

end Operator

def Action.Prepares : Action → Prop
  | .constant _ => True
  | .node op values _ => values.length = op.layout.values ∧ (op.checks = true ∨ op.computes = true)
  | .region _ => False

def Action.Builds (shaped : Prop) (generation : Generation) : Action → Prop
  | .constant _ => True
  | .node .. => False
  | .region built => built.Tidy shaped ∧ built.generation = generation

-- A plan starts at the effect of its creation, checks first, and then builds objects of one generation.
structure Plan.Tidy (shaped : Prop) (graph : Graph) (id : NodeId) (plan : Plan) : Prop where
  effect : graph.effectInput id = .ok plan.effect
  actions : ∃ before after, plan.actions = before ++ after ∧ (∀ action ∈ before, action.Prepares) ∧
    ∀ action ∈ after, action.Builds shaped plan.last.generation
  last : plan.last.Tidy shaped
  control : plan.ending = .become ∨ graph.controlInput id = .ok plan.control

def Decision.Tidy (shaped : Prop) (graph : Graph) (id : NodeId) : Decision → Prop
  | .inline plan => plan.Tidy shaped graph id
  | _ => True

structure Graph.Feeds (graph : Graph) (id source : NodeId) : Prop where
  lives : graph.HasLive id
  control : graph.controlInput id = .ok source
  closed : ∀ other input, graph.HasLive other → input ∈ graph.inputsOf other → graph.HasLive input

namespace Graph.Feeds

variable {graph : Graph} {id source input : NodeId} (feeds : graph.Feeds id source)

include feeds

theorem value {index : Nat} (read : graph.valueInput id index = .ok input) : graph.HasLive input :=
  feeds.closed id input feeds.lives (value_input_mem read)

theorem effect (read : graph.effectInput id = .ok input) : graph.HasLive input :=
  feeds.closed id input feeds.lives (effect_input_mem read)

theorem context (read : graph.contextInput? id = .ok (some input)) : graph.HasLive input :=
  feeds.closed id input feeds.lives (context_input_mem read)

theorem frameState (read : graph.frameStateInput? id = .ok (some input)) : graph.HasLive input :=
  feeds.closed id input feeds.lives (frame_state_input_mem read)

end Graph.Feeds

def Action.Fine (shaped settled : Prop) (graph : Graph) (generation : Generation) (action : Action) : Prop :=
  action.Builds shaped generation ∧ (settled → action.Sound graph)

def Decision.Fine (shaped settled : Prop) (graph : Graph) (id source : NodeId) : Decision → Prop
  | .inline plan => plan.Tidy shaped graph id ∧ (settled → plan.Sound graph source)
  | _ => True

theorem type_of_panics (c : CreationContext) {graph : Graph} (id : NodeId) : Yields (c.typeOf graph id) fun _ => True := by
  refine yields_then (yields_present fun _ _ => trivial) fun node _ => ?_
  split <;> exact yields_pure trivial

section

variable {shaped settled : Prop} {graph : Graph} {id source : NodeId}

@[simp] theorem constant_fine {generation : Generation} {value : Constant} :
    (Action.constant value).Fine shaped settled graph generation := ⟨trivial, fun _ => trivial⟩

theorem region_fine {region : Region} {generation : Generation} (tidy : region.Tidy shaped ∧ region.generation = generation)
    (sound : settled → region.Sound graph) : (Action.region region).Fine shaped settled graph generation := ⟨tidy, sound⟩

variable (feeds : settled → graph.Feeds id source)

include feeds

theorem plan_fine {plan : Plan} (before after : List Action) (effect : graph.effectInput id = .ok plan.effect)
    (control : plan.control = Graph.start ∧ plan.ending = .become ∨ graph.controlInput id = .ok plan.control)
    (actions : plan.actions = before ++ after) (prepares : ∀ action ∈ before, action.Prepares ∧ (settled → action.Sound graph))
    (builds : ∀ action ∈ after, action.Fine shaped settled graph plan.last.generation) (last : plan.last.Tidy shaped)
    (sound : settled → plan.last.Sound graph) : (Decision.inline plan).Fine shaped settled graph id source := by
  refine ⟨⟨effect, ⟨before, after, actions, fun action member => (prepares action member).1,
    fun action member => (builds action member).1⟩, last, control.imp_left And.right⟩, fun holds => ?_⟩
  refine ⟨(feeds holds).effect effect, ?_, ?_, sound holds⟩
  · rcases control with entry | own
    · exact .inr entry
    · exact .inl (Except.ok.inj (own.symm.trans (feeds holds).control))
  · rw [actions]
    exact forall_mem_append.mpr ⟨fun action member => (prepares action member).2 holds,
      fun action member => (builds action member).2 holds⟩

namespace CreationContext

variable (c : CreationContext)

def WellShaped (graph : Graph) (id : NodeId) : Creation → Prop
  | .emptyLiteralObject => ∀ map, c.heap.map? NativeContext.objectLiteralMap = some map →
      map.instanceType = .jsObject ∧ map.Fits 24
  | .generator => ∀ closure type initial map registers, graph.valueInput id 0 = .ok closure → c.typeOf graph closure = .ok type →
      type.object.bind c.generatorMap? = some (initial, map, registers) →
      map.Fits (if map.instanceType = .jsAsyncGeneratorObject then 96 else 80)
  | .literalArray site | .literalObject site => ∀ found allocation boilerplate, c.literalFeedback? graph id site.slot = .ok found →
      found.bind c.heap.allocationSite? = some allocation → allocation.boilerplate = some boilerplate → c.WellMapped boilerplate
  | _ => True

section

variable {map : ObjectRef} {elements length : Operand}

theorem create_object_fine (never : ¬ shaped) : Yields (c.createObject graph id) (Decision.Fine shaped settled graph id source) := by
  refine yields_then (value_input_panics id 0) fun target _ => yields_then (type_of_panics c target) fun _ _ => ?_
  refine yields_then (value_input_panics id 1) fun newTarget _ => yields_then (type_of_panics c newTarget) fun _ _ => ?_
  dsimp only
  split
  · split
    · refine yields_ite (fun _ => ?_) fun _ => yields_pure trivial
      refine yields_effect_control id fun effect control found led => yields_pure ?_
      refine plan_fine feeds [_] [] found (.inr led) rfl (by simp [Action.Prepares]) (by simp) ?_ fun _ => ?_
      · exact slotted_tidy _ _ [] 0 rfl rfl (by simp) (Perm.refl _) fun holds => absurd holds never
      · exact region_sound (object_header_sound _ trivial) trivial
    · exact yields_pure trivial
  · exact yields_pure trivial

theorem create_iter_result_fine : Yields (c.createIterResult graph id) (Decision.Fine shaped settled graph id source) := by
  refine yields_then (value_input_panics id 0) fun value valueRead => ?_
  refine yields_then (value_input_panics id 1) fun done doneRead => ?_
  refine yields_then (effect_input_panics id) fun effect found => yields_pure ?_
  refine plan_fine feeds [_] [] found (.inl ⟨rfl, rfl⟩) rfl (by simp [Action.Prepares]) (by simp) ?_ fun holds => ?_
  · exact object_tidy [.field .iterResultValue (.node value), .field .iterResultDone (.node done)] 2 (fun _ => rfl)
      (append_nil _) (by simp [FieldAccess.iterResultValue, FieldAccess.iterResultDone]) fun _ _ => Perm.refl _
  · refine region_sound ?_ trivial
    simp [Region.objectHeader, (feeds holds).value valueRead, (feeds holds).value doneRead]

omit feeds in
theorem array_region_tidy (kind : ElementsKind) (generation : Generation) :
    (Region.array map kind generation elements length).Tidy shaped := by
  refine object_tidy [.field (.arrayLength kind) length] 1 (fun _ => rfl) (append_nil _) (by simp) fun _ _ => ?_
  rw [Store.offsets_field, array_length_offset]
  exact Perm.refl _

omit feeds in
theorem array_region_sound (kind : ElementsKind) (generation : Generation) (elementsFine : elements.Sound graph)
    (lengthFine : length.Sound graph) : (Region.array map kind generation elements length).Sound graph :=
  region_sound (forall_mem_append.mpr ⟨object_header_sound _ elementsFine, by simpa using lengthFine⟩) trivial

theorem create_key_value_array_fine : Yields (c.createKeyValueArray graph id) (Decision.Fine shaped settled graph id source) := by
  unfold createKeyValueArray
  split
  · exact yields_pure trivial
  refine yields_then (value_input_panics id 0) fun key keyRead => ?_
  refine yields_then (value_input_panics id 1) fun value valueRead => ?_
  refine yields_then (effect_input_panics id) fun effect found => ?_
  dsimp only
  refine yields_then fixed_array_panics fun elements made => yields_pure ?_
  have tidy := @elements_tidy shaped .packed .young [.node key, .node value] elements (show 2 < UInt32.size by decide) made
  refine plan_fine feeds [] [_] found (.inl ⟨rfl, rfl⟩) rfl (by simp) ?_ (array_region_tidy .packed .young)
    fun _ => array_region_sound .packed .young trivial trivial
  refine forall_mem_singleton.mpr (region_fine tidy fun holds => (fixed_array_sound made ?_).1)
  simp [(feeds holds).value keyRead, (feeds holds).value valueRead]

omit feeds in
theorem register_file_fine (count : UInt32) : Yields (registerFile count) fun prepared =>
      (∀ action ∈ prepared.1, action.Fine shaped settled graph .young) ∧ prepared.2.Sound graph := by
  refine yields_ite (fun _ => yields_pure (by simp)) fun _ => ?_
  dsimp only
  refine yields_then fixed_array_panics fun region made => yields_pure ⟨?_, trivial⟩
  have small : ∀ index ∈ range' 0 count.toNat, index < UInt32.size := by
    intro index member
    have := mem_range'_1.mp member
    have := count.toNat_lt_size
    omega
  have sound : region.Sound graph := (fixed_array_sound made (by simp)).1
  rw [range_eq_range'] at made
  refine forall_mem_cons.mpr ⟨constant_fine, forall_mem_singleton.mpr (region_fine ?_ fun _ => sound)⟩
  refine fixed_array_tidy made ?_ ?_
  · exact forall_mem_map.mpr fun index _ => (fixed_array_regular .holey _ _).1
  · refine fun _ => range_offsets _ fun index member => ?_
    rw [Store.offset?, (fixed_array_regular .holey 0 (.heap Root.theHole)).2, UInt32.toNat_ofNat_of_lt' (small index member)]
    rfl

theorem create_generator_fine (fits : shaped → c.WellShaped graph id .generator) :
    Yields (c.createGenerator graph id) (Decision.Fine shaped settled graph id source) := by
  refine yields_then (value_input_panics id 0) fun closure closureRead => ?_
  refine yields_then (value_input_panics id 1) fun receiver receiverRead => ?_
  refine yields_then (type_of_panics c closure) fun type typed => ?_
  split
  · exact yields_pure trivial
  rename_i initial map registers known
  refine yields_ite (fun _ => ?_) fun _ => yields_pure trivial
  refine yields_then (Layout.fixed_array_size_panics _) fun size _ => ?_
  refine yields_ite (fun _ => ?_) fun _ => yields_pure trivial
  refine yields_then (context_input_panics id) fun _ contextRead => ?_
  split
  · exact yields_pure trivial
  refine yields_effect_control id fun effect control found led => ?_
  refine yields_bind _ (@register_file_fine shaped settled graph registers) fun prepared filed => yields_pure ?_
  refine plan_fine feeds [] _ found (.inr led) rfl (by simp) (forall_mem_append.mpr ⟨filed.1, by simp⟩) ?_ fun holds => ?_
  · have sized := fun holds => fits holds closure type initial map registers closureRead typed known
    -- The function and the context are stored the other way round than they are laid out.
    by_cases async : map.instanceType = .jsAsyncGeneratorObject
    · simp only [async, if_true] at sized ⊢
      refine slotted_tidy map initial [_, _, _, _, _, _, _, _, _] 9 rfl rfl ?_ ?_ sized
      · simp [FieldAccess.generatorContext, FieldAccess.generatorFunction, FieldAccess.generatorReceiver,
          FieldAccess.generatorInput, FieldAccess.generatorResumeMode, FieldAccess.generatorContinuation,
          FieldAccess.generatorRegisters, FieldAccess.asyncGeneratorQueue, FieldAccess.asyncGeneratorAwaited]
      · show Perm [32, 24, 40, 48, 56, 64, 72, 80, 88] _
        decide
    · simp only [async, if_false] at sized ⊢
      refine slotted_tidy map initial [_, _, _, _, _, _, _] 7 rfl rfl ?_ ?_ sized
      · simp [FieldAccess.generatorContext, FieldAccess.generatorFunction, FieldAccess.generatorReceiver,
          FieldAccess.generatorInput, FieldAccess.generatorResumeMode, FieldAccess.generatorContinuation,
          FieldAccess.generatorRegisters]
      · show Perm [32, 24, 40, 48, 56, 64, 72] _
        decide
  · refine region_sound (forall_mem_append.mpr ⟨forall_mem_append.mpr ⟨object_header_sound _ trivial, ?_⟩, ?_⟩) trivial
    · simp [(feeds holds).value closureRead, (feeds holds).value receiverRead, (feeds holds).context contextRead, filed.2]
    · split <;> simp

end

section

omit feeds in
theorem extension_region_fine {scopeInfo : ObjectRef} {extension : Operand} (sound : settled → extension.Sound graph) :
    (Action.region (extensionRegion scopeInfo extension)).Fine shaped settled graph .young := by
  refine region_fine ⟨⟨⟨_, [_, _], rfl, ?_⟩, fun _ _ => ⟨⟨3, rfl⟩, ?_⟩⟩, rfl⟩ fun holds => region_sound ?_ trivial
  · simp [FieldAccess.contextExtensionScopeInfo, FieldAccess.contextExtension]
  · show Perm [0, 8, 16] (Layout.words 24)
    decide
  · simpa [extensionRegion] using sound holds

section

variable {length : UInt32} {map : ObjectRef} {closure previous extension : Operand} {region : Region}

omit feeds in
theorem context_region_sound {slots : List Operand} (made : contextRegion length map closure previous extension slots = .ok region)
    (fine : ∀ operand ∈ closure :: previous :: extension :: slots, operand.Sound graph) :
    region.Sound graph ∧ region.fill = .nothing := by
  refine fixed_array_sound made (numbered_stores Store.contextSlot _ ?_ store_context_slot_sound)
  simp only [forall_mem_cons, cons_append, nil_append] at fine ⊢
  exact ⟨fine.1, fine.2.1, fine.2.2.1, trivial, fine.2.2.2⟩

omit feeds in
theorem undefined_context_panics : Yields (undefinedContext length map closure previous extension) fun _ => True :=
  yields_then fixed_array_panics fun _ _ => yields_pure trivial

omit feeds in
theorem undefined_context_sound (made : undefinedContext length map closure previous extension = .ok region)
    (fine : ∀ operand ∈ [closure, previous, extension], operand.Sound graph) : region.Sound graph := by
  obtain ⟨bare, built, same⟩ := bind_eq_ok.mp made
  cases same
  obtain ⟨sound, empty⟩ := context_region_sound built fine
  refine region_sound (fun store member => sound store ?_) trivial
  rw [Region.allStores, empty]
  exact mem_append_left _ member

end

theorem create_function_context_fine (slots : UInt32) (scope : Scope) :
    Yields (c.createFunctionContext graph id slots scope) (Decision.Fine shaped settled graph id source) := by
  refine yields_ite (fun _ => yields_pure trivial) fun _ => ?_
  dsimp only
  split
  · exact yields_pure trivial
  refine yields_then (yields_checked_add fun _ _ => trivial) fun length sum => ?_
  refine yields_then (Layout.fixed_array_size_panics _) fun size _ => ?_
  refine yields_ite (fun _ => ?_) fun _ => yields_pure trivial
  refine yields_then (context_input_panics id) fun _ previousRead => ?_
  split
  · exact yields_pure trivial
  refine yields_then (value_input_panics id 0) fun closure closureRead => ?_
  refine yields_effect_control id fun effect control found led => ?_
  refine yields_then undefined_context_panics fun region made => yields_pure ?_
  have enough : 4 ≤ length.toNat := by
    rw [checkedAdd_eq_ok.mp sum]
    exact Nat.le_add_left _ _
  refine plan_fine feeds [_] [] found (.inr led) rfl (by simp [Action.Prepares]) (by simp)
    (undefined_context_tidy enough made).1 fun holds => undefined_context_sound made ?_
  simp [(feeds holds).value closureRead, (feeds holds).context previousRead]

theorem create_with_context_fine (scopeInfo : ObjectRef) :
    Yields (createWithContext graph id scopeInfo) (Decision.Fine shaped settled graph id source) := by
  refine yields_then (context_input_panics id) fun _ previousRead => ?_
  split
  · exact yields_pure trivial
  refine yields_then (value_input_panics id 0) fun object objectRead => ?_
  refine yields_then (value_input_panics id 1) fun closure closureRead => ?_
  refine yields_effect_control id fun effect control found led => ?_
  refine yields_then fixed_array_panics fun region made => yields_pure ?_
  obtain ⟨tidy, young⟩ := @context_region_tidy shaped Layout.minContextSlots _ _ _ _ [] region rfl made
  refine plan_fine feeds [] [_] found (.inr led) rfl (by simp) ?_ tidy fun holds => (context_region_sound made ?_).1
  · rw [young]
    exact forall_mem_singleton.mpr (extension_region_fine fun holds => (feeds holds).value objectRead)
  · simp [(feeds holds).value closureRead, (feeds holds).context previousRead]

theorem create_catch_context_fine (name scopeInfo : ObjectRef) :
    Yields (createCatchContext graph id name scopeInfo) (Decision.Fine shaped settled graph id source) := by
  refine yields_then (context_input_panics id) fun _ previousRead => ?_
  split
  · exact yields_pure trivial
  refine yields_then (value_input_panics id 0) fun exception exceptionRead => ?_
  refine yields_then (value_input_panics id 1) fun closure closureRead => ?_
  refine yields_effect_control id fun effect control found led => ?_
  refine yields_then fixed_array_panics fun region made => yields_pure ?_
  obtain ⟨tidy, young⟩ := @context_region_tidy shaped (Layout.minContextSlots + 1) _ _ _ _ [.node exception] region rfl made
  refine plan_fine feeds [] [_, _] found (.inr led) rfl (by simp) ?_ tidy fun holds => (context_region_sound made ?_).1
  · rw [young]
    exact forall_mem_cons.mpr ⟨constant_fine, forall_mem_singleton.mpr (extension_region_fine fun _ => trivial)⟩
  · simp [(feeds holds).value closureRead, (feeds holds).value exceptionRead, (feeds holds).context previousRead]

theorem create_block_context_fine (scopeInfo : ObjectRef) :
    Yields (c.createBlockContext graph id scopeInfo) (Decision.Fine shaped settled graph id source) := by
  unfold createBlockContext
  split
  · exact yields_pure trivial
  rename_i info _
  refine yields_ite (fun _ => yields_pure trivial) fun long => ?_
  refine yields_then (context_input_panics id) fun _ previousRead => ?_
  split
  · exact yields_pure trivial
  refine yields_then (value_input_panics id 0) fun closure closureRead => ?_
  refine yields_effect_control id fun effect control found led => ?_
  refine yields_then undefined_context_panics fun region made => yields_pure ?_
  have enough : 4 ≤ info.contextLength.toNat := by
    simp only [Bool.or_eq_true, decide_eq_true_eq, not_or, UInt32.not_lt] at long
    exact UInt32.le_iff_toNat_le.mp long.2
  refine plan_fine feeds [_] [] found (.inr led) rfl (by simp [Action.Prepares]) (by simp)
    (undefined_context_tidy enough made).1 fun holds => undefined_context_sound made ?_
  simp [(feeds holds).value closureRead, (feeds holds).context previousRead]

end

end CreationContext

end

end SeaOfNodes
