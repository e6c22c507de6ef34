import SeaOfNodes.Proofs.Creation.Elements

/-! Drafts of literals. -/

namespace SeaOfNodes

open List

variable {action : Action} {value : UInt32 → Operand} {boilerplate : ObjectRef} {count : Nat} {roomy : Prop} {map : MapInfo}

def Operand.Drafted (count : Nat) : Operand → Prop
  | .node _ => False
  | .constant _ => True
  | .made action => action < count

def Store.Drafted (roomy : Prop) (count : Nat) : Store → Prop
  | .field _ value | .element _ _ value => value.Drafted count
  | .misplaced fault => fault.Panic ∧ ¬ roomy

def Region.Drafted (roomy : Prop) (count : Nat) (region : Region) : Prop := ∀ store ∈ region.allStores, store.Drafted roomy count

def Action.Drafted (roomy : Prop) (count : Nat) : Action → Prop
  | .constant _ => True
  | .node .. => False
  | .region built => built.Drafted roomy count

def Action.Copies (shaped roomy : Prop) (generation : Generation) (count : Nat) (action : Action) : Prop :=
  action.Builds shaped generation ∧ action.Drafted roomy count

theorem operand_drafted_mono {operand : Operand} {later : Nat} (grown : count ≤ later) (drafted : operand.Drafted count) :
    operand.Drafted later := by
  cases operand with
  | node id => exact drafted
  | constant value => trivial
  | made action => exact drafted.trans_le grown

theorem region_drafted_sound (graph : Graph) {region : Region} (drafted : region.Drafted roomy count) : region.Sound graph := by
  have operands : ∀ operand : Operand, operand.Drafted count → operand.Sound graph := by
    intro operand holds
    cases operand with
    | node id => exact holds.elim
    | constant value => trivial
    | made action => trivial
  intro store member
  have here := drafted store member
  cases store with
  | field access value | element access index value => exact operands value here
  | misplaced fault => exact here.1

theorem action_drafted_feasible (drafted : action.Drafted True count) : action.Feasible True count := by
  have operands : ∀ operand : Operand, operand.Drafted count → operand.Feasible True count := by
    intro operand holds
    cases operand with
    | made action => exact fun _ => holds
    | _ => trivial
  cases action with
  | constant value => trivial
  | node op values type => exact drafted.elim
  | region region =>
    intro store member
    have here := drafted store member
    cases store with
    | field access value | element access index value => exact operands value here
    | misplaced fault => exact ⟨here.2, here.1⟩

theorem action_copies_fine {shaped : Prop} (settled : Prop) (graph : Graph) {generation : Generation}
    (copies : action.Copies shaped roomy generation count) : action.Fine shaped settled graph generation := by
  refine ⟨copies.1, fun _ => ?_⟩
  cases action with
  | constant value => trivial
  | node op values type => exact copies.2.elim
  | region region => exact region_drafted_sound graph copies.2

theorem in_object_drafted (room : roomy → map.Roomy) (drafted : ∀ index, (value index).Drafted count) :
    ∀ store ∈ Region.allInObject map value, store.Drafted roomy count := by
  refine all_in_object (fun index _ _ => drafted index) fun index fault inside failed => ⟨in_object_panics failed, fun holds => ?_⟩
  obtain ⟨header, size⟩ := Nat.exists_eq_add_of_le' (room holds)
  obtain ⟨access, placed, _⟩ := in_object_access size inside
  cases failed.symm.trans placed

namespace CreationContext

namespace Draft

variable {α β : Type} (fine : Nat → Action → Prop)

def Drafts (count : Nat) (work : Draft α) (good : Nat → α → Prop) : Prop :=
  ∀ actions : Array Action, actions.size = count → (∀ place action, actions[place]? = some action → fine place action) →
    ∃ value later, work.run actions = .ok (value, later) ∧ count ≤ later.size ∧
      (∀ place action, later[place]? = some action → fine place action) ∧ good later.size value

variable {fine} {count : Nat}

theorem drafts_pure {value : α} {good : Nat → α → Prop} (holds : good count value) : Drafts fine count (pure value) good := by
  rintro actions rfl before
  exact ⟨value, actions, rfl, le_rfl, before, holds⟩

theorem drafts_bind {first : Draft α} {next : α → Draft β} {middle : Nat → α → Prop} (good : Nat → β → Prop)
    (begins : Drafts fine count first middle)
    (goes : ∀ later value, count ≤ later → middle later value → Drafts fine later (next value) good) :
    Drafts fine count (first >>= next) good := by
  intro actions size before
  obtain ⟨value, later, run, grown, drafted, holds⟩ := begins actions size before
  obtain ⟨result, last, further, longer, done, ends⟩ := goes later.size value grown holds later rfl drafted
  refine ⟨result, last, ?_, grown.trans longer, done, ends⟩
  rw [StateT.run_bind, run]
  exact further

theorem fine_push {actions : Array Action} (before : ∀ place other, actions[place]? = some other → fine place other)
    (holds : fine actions.size action) : ∀ place other, (actions.push action)[place]? = some other → fine place other := by
  intro place other found
  rw [Array.getElem?_push] at found
  split at found
  · cases found
    exact ‹place = actions.size› ▸ holds
  · exact before place other found

theorem drafts_add (holds : fine count action) :
    Drafts fine count (add action) fun later operand => operand.Drafted later := by
  rintro actions rfl before
  refine ⟨.made actions.size, actions.push action, rfl, ?_, fine_push before holds, ?_⟩
  · exact Array.size_push action ▸ Nat.le_succ _
  · exact Array.size_push action ▸ Nat.lt_succ_self _

theorem drafts_prepare (value : Constant) (holds : fine count (.constant value)) :
    Drafts fine count (prepare value) fun later operand => operand.Drafted later := by
  rintro actions rfl before
  refine ⟨.constant value, actions.push (.constant value), rfl, ?_, fine_push before holds, trivial⟩
  exact Array.size_push (Action.constant value) ▸ Nat.le_succ _

theorem drafts_fold {items : List β} {step : α → β → Draft α} (good : Nat → α → Prop) (value : α) (begins : good count value)
    (steps : ∀ item ∈ items, ∀ count value, good count value → Drafts fine count (step value item) good) :
    Drafts fine count (items.foldlM step value) good := by
  induction items generalizing count value with
  | nil => exact drafts_pure begins
  | cons item rest ih =>
    obtain ⟨first, later⟩ := forall_mem_cons.mp steps
    rw [foldlM_cons]
    exact drafts_bind good (first count value begins) fun count next _ reached => ih next reached later

theorem drafts_map_m (items : List α) {step : α → Draft Operand}
    (steps : ∀ item ∈ items, ∀ count, Drafts fine count (step item) fun later operand => operand.Drafted later) :
    Drafts fine count (items.mapM step) fun later operands =>
      (∀ operand ∈ operands, operand.Drafted later) ∧ operands.length = items.length := by
  induction items generalizing count with
  | nil => exact drafts_pure ⟨by simp, rfl⟩
  | cons item rest ih =>
    obtain ⟨first, others⟩ := forall_mem_cons.mp steps
    rw [mapM_cons]
    refine drafts_bind _ (first count) fun middle operand _ here => ?_
    refine drafts_bind _ (ih others) fun later operands grown all => drafts_pure ⟨?_, congrArg Nat.succ all.2⟩
    exact forall_mem_cons.mpr ⟨operand_drafted_mono grown here, all.1⟩

def Provides (shaped roomy : Prop) (generation : Generation) (work : Draft Operand) : Prop :=
  ∀ count, Drafts (Action.Copies shaped roomy generation) count work fun later operand => operand.Drafted later

end Draft

def Suits (shaped roomy : Prop) (map : MapInfo) : Prop := (shaped → map.WellSized) ∧ (roomy → map.Roomy)

section

variable {shaped roomy : Prop} {generation : Generation} (c : CreationContext) (nested : ObjectRef → Draft Operand)
  (below : ObjectRef → Prop) (provides : ∀ inner, below inner → (nested inner).Provides shaped roomy generation)

theorem prepare_provides {value : Constant} : (Draft.prepare value).Provides shaped roomy generation :=
  fun _ => Draft.drafts_prepare value ⟨trivial, trivial⟩

theorem box_copies {number : Constant} (count : Nat) :
    (Action.region (boxRegion generation number)).Copies shaped roomy generation count := by
  refine ⟨⟨⟨⟨_, [_], rfl, by simp⟩, fun _ _ => ⟨⟨2, rfl⟩, ?_⟩⟩, rfl⟩, ?_⟩
  · show Perm [0, 8] (Layout.words 16)
    decide
  · exact forall_mem_cons.mpr ⟨trivial, forall_mem_singleton.mpr trivial⟩

theorem array_provides {access : ElementAccess}
    (fine : ∀ index value, (Store.element access index value).Regular ∧ access.header = 16) (map : ObjectRef)
    {operands : List Operand} (drafted : ∀ operand ∈ operands, operand.Drafted count)
    (fits : c.fitsElements operands.length) :
    Draft.Drafts (Action.Copies shaped roomy generation) count (do
        let region ← Draft.ofFaulty (Region.fixedArray (UInt32.ofNat operands.length) map generation
          (operands.zipIdx.map fun (operand, index) => .element access (UInt32.ofNat index) operand))
        Draft.add (.region region))
      fun later operand => operand.Drafted later := by
  obtain ⟨small, size, measured, _⟩ := c.fits_elements_size fits
  obtain ⟨region, made⟩ : ∃ region, Region.fixedArray (UInt32.ofNat operands.length) map generation
      (operands.zipIdx.map fun (operand, index) => .element access (UInt32.ofNat index) operand) = .ok region :=
    ⟨_, bind_eq_ok.mpr ⟨size, measured, rfl⟩⟩
  have tidy := @element_array_tidy shaped access map generation operands region small fine made
  obtain ⟨_, _, same⟩ := bind_eq_ok.mp made
  rw [made, Draft.ofFaulty, pure_bind]
  refine Draft.drafts_add ⟨tidy, ?_⟩
  cases same
  intro store member
  simp only [Region.allStores, Fill.stores, append_nil, Region.arrayHeader, cons_append, nil_append] at member
  revert store
  refine forall_mem_cons.mpr ⟨trivial, forall_mem_cons.mpr ⟨trivial, ?_⟩⟩
  exact numbered_stores (fun index => Store.element access (UInt32.ofNat index))
    (Store.Drafted roomy count) drafted fun _ _ holds => holds

include provides

theorem copy_field_provides {representation : FieldRepresentation} {value : TaggedValue}
    (carried : ∀ inner, c.nestedLiteral? value = some inner → below inner)
    (boxed : representation = .double → c.nestedLiteral? value = none → (c.doubleField? value).isSome) :
    (c.copyField nested generation representation value).Provides shaped roomy generation := by
  rw [copyField]
  cases found : c.nestedLiteral? value with
  | some inner => exact provides inner (carried inner found)
  | none =>
    dsimp only
    split
    · rename_i double
      obtain ⟨number, held⟩ := Option.isSome_iff_exists.mp (boxed double found)
      rw [held, Draft.ofOption, pure_bind]
      intro count
      exact Draft.drafts_bind _ (prepare_provides count) fun later _ _ _ => Draft.drafts_add (box_copies later)
    · split
      · exact prepare_provides
      · exact prepare_provides

theorem copy_element_provides (value : Option TaggedValue)
    (carried : ∀ held inner, value = some held → c.nestedLiteral? held = some inner → below inner) :
    (c.copyElement nested value).Provides shaped roomy generation := by
  cases value with
  | none => exact fun count => Draft.drafts_pure trivial
  | some held =>
    rw [copyElement]
    cases found : c.nestedLiteral? held with
    | some inner => exact provides inner (carried held inner rfl found)
    | none => exact prepare_provides

variable (object : PlainObject) (map : MapInfo) (admits : c.Admits below object map)

include admits

theorem copy_fields_drafts (count : Nat) :
    Draft.Drafts (Action.Copies shaped roomy generation) count (c.copyFields nested generation map object.fields) fun later copied =>
      ∀ entry ∈ copied, entry.2.Drafted later := by
  refine Draft.drafts_fold (fun later (copied : List (UInt32 × Operand)) => ∀ entry ∈ copied, entry.2.Drafted later) [] (by simp) ?_
  intro property member count copied drafted
  split
  · exact Draft.drafts_pure drafted
  rename_i representation index place
  obtain ⟨inside, value, held, boxed⟩ := admits.field property member representation index place
  have carried : ∀ inner, c.nestedLiteral? value = some inner → below inner := fun inner isNested =>
    admits.carried inner ⟨value, isNested, .inl ⟨property, member, representation, index, place, held⟩⟩
  rw [held, Draft.ofOption, pure_bind]
  refine Draft.drafts_bind _ (copy_field_provides c nested below provides carried boxed count) fun later operand grown here => ?_
  dsimp only
  rw [if_neg (UInt32.not_le.mpr inside)]
  refine Draft.drafts_pure (forall_mem_cons.mpr ⟨here, fun entry listed => ?_⟩)
  exact operand_drafted_mono grown (drafted entry listed)

theorem copy_elements_provides : (c.copyElements nested generation map object.elements).Provides shaped roomy generation := by
  rw [copyElements]
  rcases admits.elements with ⟨store, values, found, fine⟩ | ⟨values, found, fits⟩
  · rw [found]
    dsimp only
    by_cases shared : values = [] ∨ store = Root.copyOnWriteArrayMap
    · rw [if_pos (by simpa using shared)]
      exact prepare_provides
    rw [if_neg (by simpa using shared)]
    obtain ⟨some, own⟩ := not_or.mp shared
    intro count
    refine Draft.drafts_bind _ (prepare_provides count) fun _ _ _ _ => ?_
    refine Draft.drafts_bind _ (Draft.drafts_map_m values fun value member => ?_) ?_
    · refine copy_element_provides c nested below provides value fun held inner same isNested => ?_
      exact admits.carried inner ⟨held, isNested, .inr ⟨store, values, found, own, same ▸ member⟩⟩
    · rintro later operands _ ⟨drafted, counted⟩
      rw [← counted] at fine ⊢
      exact c.array_provides (fixed_array_regular map.elementsKind) store drafted ((fine.resolve_left some).resolve_left own)
  · rw [found]
    dsimp only
    split
    · exact prepare_provides
    · intro count
      refine Draft.drafts_bind _ (Draft.drafts_map_m values fun value _ => prepare_provides) ?_
      rintro later operands _ ⟨drafted, counted⟩
      exact c.array_provides (elements_regular .packedDouble) Root.fixedDoubleArrayMap drafted (counted ▸ fits)

omit provides admits in
theorem copy_length_drafts (count : Nat) :
    Draft.Drafts (Action.Copies shaped roomy generation) count (c.copyLength map object) fun later stores =>
      (∀ store ∈ stores, store.Drafted roomy later) ∧
        (map.isArrayMap ∧ (∃ length, stores = [.field (.arrayLength map.elementsKind) length]) ∨
          map.isArrayMap = false ∧ stores = []) := by
  rw [copyLength]
  by_cases isArray : map.isArrayMap
  · rw [if_pos isArray]
    refine Draft.drafts_bind _ (prepare_provides count) fun later operand _ drafted => Draft.drafts_pure ⟨?_, ?_⟩
    · exact forall_mem_singleton.mpr drafted
    · exact .inl ⟨isArray, operand, rfl⟩
  · rw [if_neg isArray]
    exact Draft.drafts_pure ⟨by simp, .inr ⟨Bool.eq_false_iff.mpr isArray, rfl⟩⟩

omit provides admits in
theorem object_copy_tidy (sized : shaped → map.WellSized) (elements : Operand) {length : List Store}
    (counted : map.isArrayMap ∧ (∃ operand, length = [.field (.arrayLength map.elementsKind) operand]) ∨
      map.isArrayMap = false ∧ length = []) :
    Region.Tidy shaped
      { size := map.instanceSize, generation := generation, type := instanceType map,
        stores := Region.objectHeader object.map elements ++ length ++ Region.allInObject map value } := by
  rcases counted with ⟨isArray, operand, rfl⟩ | ⟨plain, rfl⟩
  · refine slotted_tidy map object.map [_] 1 rfl (append_nil _) (by simp) ?_ fun holds => ?_
    · rw [Store.offsets_field, array_length_offset]
      exact Perm.refl _
    · rcases sized holds with ⟨other, _⟩ | ⟨_, fits⟩
      · simp [MapInfo.isArrayMap, other] at isArray
      · exact fits
  · refine slotted_tidy map object.map [] 0 rfl (append_nil _) (by simp) (Perm.refl _) fun holds => ?_
    rcases sized holds with ⟨_, fits⟩ | ⟨other, _⟩
    · exact fits
    · simp [MapInfo.isArrayMap, other] at plain

theorem copy_object_drafts (there : c.heap.plainObject? boilerplate = some object)
    (known : c.heap.map? object.map = some map) (suits : Suits shaped roomy map) (count : Nat) :
    Draft.Drafts (Action.Copies shaped roomy generation) count (c.copyObject nested generation boilerplate) fun later region =>
      (Action.region region).Copies shaped roomy generation later := by
  rw [copyObject, there, Draft.ofOption, pure_bind, known, Draft.ofOption, pure_bind]
  refine Draft.drafts_bind _ (copy_fields_drafts c nested below provides object map admits count) fun first fields _ copied => ?_
  refine Draft.drafts_bind _ (prepare_provides first) fun second filler early filled => ?_
  refine Draft.drafts_bind _ (copy_elements_provides c nested below provides object map admits second)
    fun third elements middle stored => ?_
  refine Draft.drafts_bind _ (copy_length_drafts c object map third) fun fourth length late measured => ?_
  refine Draft.drafts_pure ⟨⟨object_copy_tidy object map suits.1 elements measured.2, rfl⟩, ?_⟩
  have slots : ∀ index, ((fields.lookup index).getD filler).Drafted fourth := by
    intro index
    cases found : fields.lookup index with
    | none => exact operand_drafted_mono (middle.trans late) filled
    | some operand =>
      refine operand_drafted_mono (le_trans early (middle.trans late)) ?_
      exact copied (index, operand) (mem_of_lookup index operand found)
  refine forall_mem_append.mpr ⟨forall_mem_append.mpr ⟨forall_mem_append.mpr ⟨?_, measured.1⟩, ?_⟩, by simp [Fill.stores]⟩
  · refine forall_mem_cons.mpr ⟨trivial, forall_mem_cons.mpr ⟨trivial, forall_mem_singleton.mpr ?_⟩⟩
    exact operand_drafted_mono late stored
  · exact in_object_drafted suits.2 slots

omit provides admits in
theorem copy_literal_drafts {depth : Nat} (copyable : c.Copyable (Suits shaped roomy) depth boilerplate) (count : Nat) :
    Draft.Drafts (Action.Copies shaped roomy generation) count (c.copyLiteral generation depth boilerplate) fun later region =>
      (Action.region region).Copies shaped roomy generation later := by
  induction depth generalizing boilerplate count with
  | zero => exact copyable.elim
  | succ depth ih =>
    obtain ⟨object, map, there, known, admits, suits⟩ := copyable
    refine copy_object_drafts c _ (c.Copyable (Suits shaped roomy) depth) (fun inner below count => ?_) object map admits there known suits count
    exact Draft.drafts_bind _ (ih below count) fun later region _ copies => Draft.drafts_add copies

end

section

variable {shaped settled : Prop} {graph : Graph} {id source : NodeId} (c : CreationContext)
  (feeds : settled → graph.Feeds id source)

include feeds

theorem create_literal_fine (slot : UInt32) (mapped : shaped → ∀ found allocation boilerplate,
      c.literalFeedback? graph id slot = .ok found → found.bind c.heap.allocationSite? = some allocation →
      allocation.boilerplate = some boilerplate → c.WellMapped boilerplate) :
    Yields (c.createLiteral graph id slot) (Decision.Fine shaped settled graph id source) := by
  refine yields_then (literal_feedback_panics c id slot) fun found fed => ?_
  split
  · exact yields_pure trivial
  rename_i site known
  split
  · exact yields_pure trivial
  rename_i boilerplate named
  dsimp only
  split
  · exact yields_pure trivial
  rename_i rest checked
  refine yields_effect_control id fun effect control found led => ?_
  have copyable : c.Copyable (Suits shaped False) _ boilerplate :=
    c.check_literal_copyable _ checked fun inner object map reached there listed =>
      ⟨fun holds => mapped holds _ site boilerplate fed known named inner object map reached there listed, False.elim⟩
  obtain ⟨last, actions, made, _, builds, ⟨tidy, same⟩, drafted⟩ :=
    copy_literal_drafts c copyable 0 #[] rfl (by simp)
  rw [made]
  refine yields_pure (plan_fine feeds [] _ found (.inr led) rfl (by simp) (fun action member => ?_) tidy fun _ =>
    region_drafted_sound graph drafted)
  obtain ⟨place, listed⟩ := mem_iff_getElem?.mp member
  exact action_copies_fine settled graph (same ▸ builds place action (by simpa using listed))

theorem create_literal_reg_exp_fine (slot : UInt32) :
    Yields (c.createLiteralRegExp graph id slot) (Decision.Fine shaped settled graph id source) := by
  refine yields_then (literal_feedback_panics c id slot) fun found _ => ?_
  split
  · exact yields_pure trivial
  refine yields_effect_control id fun effect control found led => yields_pure ?_
  refine plan_fine feeds [_, _] [] found (.inr led) rfl (by simp [Action.Prepares]) (by simp)
    ⟨⟨_, [_, _, _, _, _, _], rfl, ?_⟩, fun _ _ => ⟨⟨7, rfl⟩, ?_⟩⟩ fun _ => region_sound (by simp) trivial
  · simp [FieldAccess.properties, FieldAccess.elements, FieldAccess.regExpData, FieldAccess.regExpSource,
      FieldAccess.regExpFlags, FieldAccess.regExpLastIndex]
  · show Perm [0, 8, 16, 24, 32, 40, 48] (Layout.words 56)
    decide

theorem create_empty_literal_object_fine (fits : shaped → c.WellShaped graph id .emptyLiteralObject) :
    Yields (c.createEmptyLiteralObject graph id) (Decision.Fine shaped settled graph id source) := by
  unfold createEmptyLiteralObject
  split
  · exact yields_pure trivial
  · rename_i map known
    refine yields_effect_control id fun effect control found led => yields_pure ?_
    refine plan_fine feeds [_] [] found (.inr led) rfl (by simp [Action.Prepares]) (by simp) ?_ fun _ => ?_
    · exact slotted_tidy map _ [] 0 rfl rfl (by simp) (Perm.refl _) fun holds => (fits holds map known).2
    · exact region_sound (object_header_sound _ trivial) trivial

theorem decide_fine (request : Creation) (carried : graph.op id = .ok (.create request))
    (fits : shaped → request ≠ .object ∧ c.WellShaped graph id request) :
    Yields (c.decideCreation graph id request) (Decision.Fine shaped settled graph id source) := by
  cases request with
  | object => exact create_object_fine feeds c fun holds => (fits holds).1 rfl
  | arguments kind => exact create_arguments_fine feeds c kind
  | array arity site => exact create_array_fine c feeds carried
  | iterResult => exact create_iter_result_fine feeds c
  | keyValueArray => exact create_key_value_array_fine feeds c
  | literalArray site | literalObject site => exact create_literal_fine c feeds site.slot fun holds => (fits holds).2
  | literalRegExp site => exact create_literal_reg_exp_fine c feeds site.slot
  | emptyLiteralArray slot => exact create_empty_literal_array_fine c feeds slot
  | emptyLiteralObject => exact create_empty_literal_object_fine c feeds fun holds => (fits holds).2
  | functionContext slots scope => exact create_function_context_fine feeds c slots scope
  | withContext scopeInfo => exact create_with_context_fine feeds scopeInfo
  | catchContext name scopeInfo => exact create_catch_context_fine feeds name scopeInfo
  | blockContext scopeInfo => exact create_block_context_fine feeds c scopeInfo
  | generator => exact create_generator_fine feeds c fun holds => (fits holds).2

omit feeds in
theorem decide_tidy {request : Creation} (carried : graph.op id = .ok (.create request))
    (fits : shaped → request ≠ .object ∧ c.WellShaped graph id request) {decision : Decision}
    (decided : c.decide graph id = .ok decision) : decision.Tidy shaped graph id := by
  rw [decide, carried] at decided
  have fine := yields_ok _ _ (@decide_fine shaped False graph id id c False.elim request carried fits) decided
  cases decision with
  | inline plan => exact fine.1
  | decline => trivial
  | declineLiteral reason => trivial

end

end CreationContext

end SeaOfNodes
