import SeaOfNodes.Proofs.Creation.Planned

/-! Plans that build backing stores: arguments, arrays and the copies of literals. -/

namespace SeaOfNodes.CreationContext

open List

variable {values : List Operand}

section

variable {map : ObjectRef} {elements length : Operand} {callee : NodeId} {shaped settled : Prop} {graph : Graph}

theorem arguments_region_tidy {kind : ArgumentsKind} : (argumentsRegion kind map elements length callee).Tidy shaped := by
  cases kind with
  | mapped =>
    exact object_tidy [_, _] 2 (fun _ => rfl) rfl (by simp [FieldAccess.argumentsLength, FieldAccess.argumentsCallee])
      fun _ _ => Perm.refl _
  | unmapped =>
    exact object_tidy [_] 1 (fun _ => rfl) rfl (by simp [FieldAccess.argumentsLength]) fun _ _ => Perm.refl _
  | rest =>
    exact object_tidy [_] 1 (fun _ => rfl) rfl (by simp) fun _ _ => Perm.refl _

theorem arguments_region_sound {kind : ArgumentsKind} (elementsFine : elements.Sound graph) (lengthFine : length.Sound graph)
    (calleeLives : graph.HasLive callee) : (argumentsRegion kind map elements length callee).Sound graph := by
  refine region_sound (forall_mem_append.mpr ⟨object_header_sound _ elementsFine, ?_⟩) trivial
  cases kind <;> simp [argumentsFields, lengthFine, calleeLives]

theorem slot_stores_yields (first : Nat) (fine : settled → ∀ value ∈ values, value.Sound graph) :
    Yields (slotStores first values) fun stores => settled → ∀ store ∈ stores, store.Sound graph := by
  refine yields_mono (yields_map_m (fun store => settled → store.Sound graph) ?_)
    fun stores sound holds store member => sound store member holds
  rintro ⟨value, index⟩ member
  refine yields_then ?_ fun access _ => yields_pure fun holds => ?_
  · exact yields_then (Layout.fixed_array_size_panics _) fun _ _ => yields_pure trivial
  · exact fine holds value (fst_mem_of_mem_zipIdx member)

-- A store of slots is filled in one go.
theorem slots_fine (length : UInt32) (map : ObjectRef) (values : List Operand) (next : Region → Except Fault (List Action × Operand))
    (good : List Action × Operand → Prop) (counted : length.toNat = values.length)
    (fine : settled → ∀ value ∈ values, value.Sound graph)
    (goes : ∀ region, (Action.region region).Fine shaped settled graph .young → Yields (next region) good) :
    Yields (do
      let stores ← slotStores 0 values
      let region ← Region.fixedArray length map .young stores
      next region) good := by
  have sound := slot_stores_yields 0 fine
  refine yields_then (yields_mono sound fun _ _ => trivial) fun stores listed => ?_
  refine yields_then fixed_array_panics fun region made => goes region ?_
  refine region_fine (slots_tidy counted listed made) fun holds => ?_
  exact (fixed_array_sound made (yields_ok _ _ sound listed holds)).1

theorem plain_arguments_fine (values : List NodeId) (small : values.length < UInt32.size)
    (live : settled → ∀ value ∈ values, graph.HasLive value) :
    Yields (plainArguments values) fun store =>
      (∀ action ∈ store.1, action.Fine shaped settled graph .young) ∧ store.2.Sound graph := by
  refine yields_ite (fun _ => yields_pure (by simp)) fun _ => ?_
  refine @slots_fine shaped settled graph _ _ _ _ _ ?_ (fun holds => ?_) fun region fine => yields_pure ⟨forall_mem_singleton.mpr fine, trivial⟩
  · rw [UInt32.toNat_ofNat_of_lt' small, length_map]
  · exact forall_mem_map.mpr (live holds)

theorem aliased_slot_panics {formals index : UInt32} : Yields (aliasedSlot formals index) fun _ => True :=
  yields_then (yields_checked_add fun _ _ => trivial) fun _ _ =>
    yields_then (yields_checked_sub fun _ => trivial) fun _ _ => yields_checked_sub fun _ => trivial

theorem aliased_arguments_fine (values : List NodeId) (context : NodeId) (formals : UInt32) (small : values.length < UInt32.size)
    (live : settled → ∀ value ∈ values, graph.HasLive value) (contextLives : settled → graph.HasLive context) :
    Yields (aliasedArguments values context formals) fun store =>
      (∀ action ∈ store.1, action.Fine shaped settled graph .young) ∧ store.2.Sound graph := by
  unfold aliasedArguments
  dsimp only
  refine @slots_fine shaped settled graph _ _ _ _ _ ?_ (fun holds => ?_) fun unmapped unmappedFine => ?_
  · rw [UInt32.toNat_ofNat_of_lt' small, length_map, length_zipIdx]
  · intro value member
    obtain ⟨⟨source, index⟩, listed, rfl⟩ := mem_map.mp member
    dsimp only
    split
    · trivial
    · exact live holds source (fst_mem_of_mem_zipIdx listed)
  refine yields_then (yields_mono (yields_map_m (fun _ => True) ?_) fun _ _ => trivial) fun slots named => ?_
  · exact fun index _ => yields_then aliased_slot_panics fun _ _ => yields_pure trivial
  refine yields_then (yields_checked_add fun _ _ => trivial) fun length sum => ?_
  refine @slots_fine shaped settled graph _ _ _ _ _ ?_ (fun holds => ?_) fun parameterMap mapFine => yields_pure ⟨?_, trivial⟩
  · rw [checkedAdd_eq_ok.mp sum, length_append, length_map, map_m_length named, length_range]
    exact add_comm _ _
  · simp [contextLives holds]
  · refine forall_mem_append.mpr ⟨forall_mem_append.mpr ⟨by simp [unmappedFine], ?_⟩, forall_mem_singleton.mpr mapFine⟩
    exact forall_mem_map.mpr fun _ _ => constant_fine

theorem value_inputs_short {graph : Graph} {id : NodeId} {op : Operator} {values : List NodeId} (carried : graph.op id = .ok op)
    (read : graph.valueInputs id = .ok values) : values.length ≤ op.layout.values := by
  obtain ⟨node, found, rfl⟩ := (graph.op_eq_ok id op).mp carried
  rw [Graph.value_inputs_eq found read]
  exact length_take_le _ _

variable {id source : NodeId} (feeds : settled → graph.Feeds id source)

include feeds

theorem outermost_arguments_fine (kind : ArgumentsKind) (shared : SharedInfo) :
    Yields (outermostArguments graph id kind shared) (Decision.Fine shaped settled graph id source) := by
  refine yields_ite (fun _ => yields_pure trivial) fun _ => ?_
  dsimp only
  split
  · exact yields_pure trivial
  · refine yields_then (value_input_panics id 0) fun callee calleeRead => ?_
    refine yields_then (effect_input_panics id) fun effect found => yields_pure ?_
    refine plan_fine feeds [_, _, _] [] found (.inl ⟨rfl, rfl⟩) rfl ?_ (by simp) arguments_region_tidy
      fun holds => arguments_region_sound trivial trivial ((feeds holds).value calleeRead)
    simp [Action.Prepares, Action.Sound, Operator.isControl, Operator.outputs, Operator.checks, Operator.computes, Operator.layout, InputLayout.plain]

variable (state : NodeId) (stateLives : settled → graph.HasLive state)

include stateLives

theorem arguments_state_yields : Yields (argumentsState graph state) fun recorded => settled → graph.HasLive recorded := by
  refine yields_then (value_input_panics state _) fun outer outerRead => yields_then (op_panics outer) fun op _ => ?_
  split
  · refine yields_pure fun holds => ?_
    split
    · exact (feeds holds).closed state outer (stateLives holds) (Graph.value_input_mem outerRead)
    · exact stateLives holds
  · exact yields_pure stateLives

theorem recorded_arguments_yields : Yields (recordedArguments? graph state) fun found => ∀ values, found = some values →
      values.length < UInt32.size ∧ (settled → ∀ value ∈ values, graph.HasLive value) := by
  refine yields_then (op_panics state) fun op _ => ?_
  split
  · refine yields_then (value_input_panics state _) fun parameters parametersRead => ?_
    refine yields_then (op_panics parameters) fun op carried => ?_
    split
    · rename_i count
      refine yields_ite (fun _ => yields_pure (by simp)) fun _ => ?_
      refine yields_then (value_inputs_panics parameters) fun values read => ?_
      refine yields_then (yields_require fun _ => trivial) fun _ _ => yields_pure ?_
      rintro _ ⟨⟩
      have short : values.length ≤ count.toNat := value_inputs_short carried read
      refine ⟨?_, fun holds value member => ?_⟩
      · rw [length_drop]
        exact lt_of_le_of_lt (le_trans (Nat.sub_le _ _) short) count.toNat_lt_size
      · have parametersLive := (feeds holds).closed state parameters (stateLives holds) (Graph.value_input_mem parametersRead)
        exact (feeds holds).closed parameters value parametersLive (Graph.value_inputs_mem read value (mem_of_mem_drop member))
    · exact yields_pure (by simp)
  · exact yields_pure (by simp)

variable (c : CreationContext)

theorem inlined_arguments_fine (kind : ArgumentsKind) (shared : SharedInfo) :
    Yields (c.inlinedArguments graph id kind state shared) (Decision.Fine shaped settled graph id source) := by
  unfold inlinedArguments
  refine yields_ite (fun _ => yields_pure trivial) fun _ => ?_
  refine yields_bind _ (arguments_state_yields feeds state stateLives) fun recorded recordedLives => ?_
  refine yields_bind _ (recorded_arguments_yields feeds recorded recordedLives) fun found recordedValues => ?_
  split
  · exact yields_pure trivial
  rename_i values
  obtain ⟨small, live⟩ := recordedValues values rfl
  dsimp only
  refine yields_then (yields_checked_add fun _ _ => trivial) fun slots _ => ?_
  refine yields_then (Layout.fixed_array_size_panics _) fun largest _ => ?_
  refine yields_ite (fun _ => ?_) fun _ => yields_pure trivial
  refine yields_then (value_input_panics id 0) fun callee calleeRead => ?_
  refine yields_then (context_input_panics id) fun _ contextRead => ?_
  refine yields_then (effect_input_panics id) fun effect found => ?_
  have finish : ∀ (map : ObjectRef) (length : Nat) (store : List Action × Operand),
      (∀ action ∈ store.1, action.Fine shaped settled graph .young) ∧ store.2.Sound graph →
      Decision.Fine shaped settled graph id source (.inline
        { effect := effect, control := Graph.start, actions := store.1 ++ [.constant (.number (.ofInt length))],
          last := argumentsRegion kind map store.2 (.constant (.number (.ofInt length))) callee, ending := .become }) := by
    intro map length store fine
    refine plan_fine feeds [] _ found (.inl ⟨rfl, rfl⟩) rfl (by simp) ?_ arguments_region_tidy
      fun holds => arguments_region_sound fine.2 trivial ((feeds holds).value calleeRead)
    exact forall_mem_append.mpr ⟨fine.1, forall_mem_singleton.mpr constant_fine⟩
  have plain := @plain_arguments_fine shaped settled graph values small live
  cases kind with
  | mapped =>
    dsimp only
    split
    · exact yields_pure trivial
    · rename_i context
      refine yields_ite (fun _ => ?_) fun _ => ?_
      · exact yields_bind _ plain fun store fine => yields_pure (finish _ _ store fine)
      · have aliased := @aliased_arguments_fine shaped settled graph values context shared.formals small live fun holds =>
          (feeds holds).context contextRead
        exact yields_bind _ aliased fun store fine => yields_pure (finish _ _ store fine)
  | unmapped => exact yields_bind _ plain fun store fine => yields_pure (finish _ _ store fine)
  | rest =>
    dsimp only
    split
    · exact yields_pure trivial
    · have dropped := @plain_arguments_fine shaped settled graph (values.drop shared.formals.toNat)
        (lt_of_le_of_lt (length_drop ▸ Nat.sub_le _ _) small)
        fun holds value member => live holds value (mem_of_mem_drop member)
      exact yields_bind _ dropped fun store fine => yields_pure (finish _ _ store fine)

omit stateLives in
theorem create_arguments_fine (kind : ArgumentsKind) :
    Yields (c.createArguments graph id kind) (Decision.Fine shaped settled graph id source) := by
  refine yields_then (frame_state_input_panics id) fun _ stateRead => ?_
  split
  · exact yields_pure trivial
  rename_i state
  refine yields_then (op_panics state) fun op _ => ?_
  split
  · split
    · exact yields_pure trivial
    · rename_i shared _
      refine yields_then (value_input_panics state _) fun outer _ => yields_then (op_panics outer) fun op _ => ?_
      split
      · exact inlined_arguments_fine feeds state (fun holds => (feeds holds).frameState stateRead) c kind shared
      · exact outermost_arguments_fine feeds kind shared
  · exact yields_pure trivial

end

section

variable {kind : ElementsKind} {capacity : UInt32} {generation : Generation} {shaped settled : Prop} {graph : Graph}

theorem store_size_panics (kind : ElementsKind) : Yields (kind.storeSize capacity) fun _ => True := by
  rw [ElementsKind.storeSize]
  split
  · exact Layout.fixed_double_array_size_panics capacity
  · exact Layout.fixed_array_size_panics capacity

theorem elements_panics (kind : ElementsKind) (generation : Generation) :
    Yields (Region.elements kind generation values) fun _ => True := by
  rw [Region.elements]
  dsimp only
  split
  · exact yields_then (Layout.fixed_double_array_size_panics _) fun _ _ => yields_pure trivial
  · exact fixed_array_panics

theorem elements_fine {region : Region} (small : values.length < UInt32.size)
    (fine : settled → ∀ value ∈ values, value.Sound graph) (made : Region.elements kind generation values = .ok region) :
    (Action.region region).Fine shaped settled graph generation := by
  refine region_fine (elements_tidy kind generation values region small made) fun holds => ?_
  have stores := numbered_stores (fun index => Store.element kind.access (UInt32.ofNat index))
    (Store.Sound graph) (fine holds) fun _ _ sound => sound
  rw [Region.elements] at made
  dsimp only at made
  split at made
  · exact double_array_sound made stores
  · exact (fixed_array_sound made stores).1

-- The length is a node or zero; either way the store comes first.
theorem measured_fine (generation : Generation) (found : Option NodeId) : let made : List Action × Operand := match found with
      | some length => ([], .node length)
      | none => ([.constant (.number (.ofInt 0))], .number 0)
    (∀ action ∈ made.1, action.Fine shaped settled graph generation) ∧
      ((settled → ∀ value, found = some value → graph.HasLive value) → settled → made.2.Sound graph) := by
  cases found with
  | none => simp
  | some value => exact ⟨by simp, fun live holds => live holds value rfl⟩

variable (c : CreationContext)

theorem checked_element_fine (kind : ElementsKind) (value : NodeId) (next : Nat) (live : settled → graph.HasLive value) :
    Yields (c.checkedElement graph kind value next) fun checked =>
      (∀ action ∈ checked.1, action.Prepares ∧ (settled → action.Sound graph)) ∧ (settled → checked.2.Sound graph) := by
  have typed : Yields (c.elementType graph kind value next) fun _ => True := by
    rw [elementType]
    exact yields_ite (fun _ => trivial) fun _ => type_of_panics c value
  refine yields_then typed fun type _ => yields_ite (fun _ => ?_) fun _ => yields_ite (fun _ => ?_) fun _ => ?_
  · refine yields_ite (fun _ => yields_pure ⟨by simp, live⟩) fun _ => yields_pure ⟨?_, fun _ => trivial⟩
    simpa [Action.Prepares, Action.Sound, Operator.isControl, Operator.outputs, Operator.checks, Operator.layout, InputLayout.plain] using live
  · refine yields_ite (fun _ => yields_pure ⟨?_, fun _ => trivial⟩) fun _ => yields_pure ⟨?_, fun _ => trivial⟩
    · simpa [Action.Prepares, Action.Sound, Operator.isControl, Operator.outputs, Operator.computes, Operator.layout, InputLayout.plain] using live
    · simpa [Action.Prepares, Action.Sound, Operator.isControl, Operator.outputs, Operator.checks, Operator.computes, Operator.layout,
        InputLayout.plain] using live
  · exact yields_pure ⟨by simp, live⟩

theorem checked_elements_fine (kind : ElementsKind) {values : List NodeId} (next : Nat)
    (live : settled → ∀ value ∈ values, graph.HasLive value) :
    Yields (c.checkedElements graph kind values next) fun checked =>
      (∀ action ∈ checked.1, action.Prepares ∧ (settled → action.Sound graph)) ∧
        (settled → ∀ operand ∈ checked.2, operand.Sound graph) ∧ checked.2.length = values.length := by
  induction values generalizing next with
  | nil => exact yields_pure ⟨by simp, by simp, rfl⟩
  | cons value rest ih =>
    rw [checkedElements]
    refine yields_bind _ (checked_element_fine c kind value next fun holds => live holds value mem_cons_self) ?_
    rintro ⟨checks, element⟩ ⟨checksFine, elementFine⟩
    refine yields_bind _ (ih (next + checks.length) fun holds other member =>
      live holds other (mem_cons_of_mem value member)) ?_
    rintro ⟨further, elements⟩ ⟨furtherFine, elementsFine, counted⟩
    exact yields_pure ⟨forall_mem_append.mpr ⟨checksFine, furtherFine⟩,
      fun holds => forall_mem_cons.mpr ⟨elementFine holds, elementsFine holds⟩, congrArg Nat.succ counted⟩

variable {id source : NodeId} (feeds : settled → graph.Feeds id source)

include feeds

theorem empty_array_fine (length : Option NodeId) (lengthLives : settled → ∀ value, length = some value → graph.HasLive value) :
    Yields (c.emptyArray graph id length kind capacity generation) (Decision.Fine shaped settled graph id source) := by
  unfold emptyArray
  extract_lets allocated
  have rest : ∀ kind, Yields (allocated kind) (Decision.Fine shaped settled graph id source) := by
    intro kind
    dsimp only [allocated]
    split
    · exact yields_pure trivial
    refine yields_then (store_size_panics kind) fun size _ => ?_
    refine yields_ite (fun _ => ?_) fun _ => yields_pure trivial
    refine yields_effect_control id fun effect control found led => ?_
    obtain ⟨counting, counted⟩ := @measured_fine shaped settled graph generation length
    refine yields_ite (fun _ => yields_pure ?_) fun _ => yields_then (elements_panics kind generation)
      fun store made => yields_pure ?_
    · refine plan_fine feeds [] _ found (.inr led) rfl (by simp) (forall_mem_append.mpr
        ⟨forall_mem_singleton.mpr constant_fine, counting⟩)
        (array_region_tidy _ _) fun holds => array_region_sound _ _ trivial (counted lengthLives holds)
    refine plan_fine feeds [] _ found (.inr led) rfl (by simp) ?_ (array_region_tidy _ _)
      fun holds => array_region_sound _ _ trivial (counted lengthLives holds)
    refine forall_mem_append.mpr ⟨forall_mem_cons.mpr ⟨constant_fine, forall_mem_singleton.mpr ?_⟩, counting⟩
    refine elements_fine ?_ (fun _ value member => ?_) made
    · rw [length_replicate]
      exact capacity.toNat_lt_size
    · rw [(mem_replicate.mp member).2]
      trivial
  cases length with
  | none => exact rest kind
  | some value => exact yields_then (type_of_panics c value) fun type _ => rest _

theorem array_of_fine (values : List NodeId) (small : values.length < UInt32.size)
    (live : settled → ∀ value ∈ values, graph.HasLive value) :
    Yields (c.arrayOf graph id values kind generation) (Decision.Fine shaped settled graph id source) := by
  unfold arrayOf
  split
  · exact yields_pure trivial
  refine yields_then (store_size_panics kind) fun size _ => ?_
  refine yields_ite (fun _ => ?_) fun _ => yields_pure trivial
  refine yields_effect_control id fun effect control found led => ?_
  refine yields_bind _ (checked_elements_fine c kind 0 live) ?_
  rintro ⟨checks, elements⟩ ⟨checksFine, elementsFine, counted⟩
  refine yields_then (elements_panics kind generation) fun store made => yields_pure ?_
  refine plan_fine feeds checks [_, _] found (.inr led) rfl checksFine ?_ (array_region_tidy _ _)
    fun _ => array_region_sound _ _ trivial trivial
  exact forall_mem_cons.mpr ⟨elements_fine (counted ▸ small) elementsFine made, forall_mem_singleton.mpr constant_fine⟩

theorem create_array_fine {arity : UInt32} {site : Option ObjectRef} (carried : graph.op id = .ok (.create (.array arity site))) :
    Yields (c.createArray graph id arity site) (Decision.Fine shaped settled graph id source) := by
  unfold createArray
  refine yields_then (value_input_panics id 0) fun target _ => yields_then (value_input_panics id 1) fun newTarget _ => ?_
  refine yields_ite (fun _ => yields_pure trivial) fun _ => ?_
  split
  · exact yields_pure trivial
  refine yields_ite (fun _ => yields_pure trivial) fun _ => ?_
  refine yields_ite (fun _ => ?_) fun _ => yields_ite (fun _ => ?_) fun _ => yields_ite (fun _ => ?_) fun _ => ?_
  · exact empty_array_fine c feeds none (by simp)
  · refine yields_then (value_input_panics id 2) fun length lengthRead => yields_then (type_of_panics c length) fun _ _ => ?_
    refine yields_ite (fun _ => ?_) fun _ => ?_
    · exact array_of_fine c feeds [length] (show 1 < UInt32.size by decide) (fun holds => by simpa using (feeds holds).value lengthRead)
    · split
      · refine yields_ite (fun _ => empty_array_fine c feeds (some length) ?_) fun _ => yields_pure trivial
        rintro holds _ ⟨⟩
        exact (feeds holds).value lengthRead
      · exact yields_pure trivial
  · refine yields_then (value_inputs_panics id) fun values read => array_of_fine c feeds (values.drop 2) ?_ ?_
    · have short : values.length ≤ 2 + arity.toNat := value_inputs_short carried read
      have bound := arity.toNat_lt_size
      rw [length_drop]
      omega
    · intro holds value member
      exact (feeds holds).closed id value (feeds holds).lives (Graph.value_inputs_mem read value (mem_of_mem_drop member))
  · exact yields_pure trivial

omit feeds in
theorem literal_feedback_panics (id : NodeId) (slot : UInt32) : Yields (c.literalFeedback? graph id slot) fun _ => True := by
  refine yields_then ?_ fun vector _ => yields_pure trivial
  refine yields_then (value_input_panics id 0) fun closure _ => ?_
  exact yields_then (yields_present fun _ _ => trivial) fun _ _ => yields_pure trivial

theorem create_empty_literal_array_fine (slot : UInt32) :
    Yields (c.createEmptyLiteralArray graph id slot) (Decision.Fine shaped settled graph id source) := by
  refine yields_then (literal_feedback_panics c id slot) fun found _ => ?_
  split
  · exact yields_pure trivial
  · exact yields_ite (fun _ => yields_pure trivial) fun _ => empty_array_fine c feeds none (by simp)

end

end SeaOfNodes.CreationContext
