import SeaOfNodes.Proofs.Creation.Filled

/-! What arguments objects and rest parameters of inlined functions hold. -/

namespace SeaOfNodes

open List

-- A store without slots is the empty fixed array.
def Graph.Backs (graph : Graph) : List (NodeId → Prop) → NodeId → Prop
  | [], id => graph.Names (.heap Root.emptyFixedArray) id
  | slot :: slots, id =>
    graph.Contains (graph.Names (.heap Root.fixedArrayMap) :: graph.Names (.number (.ofInt (slots.length + 1 : Nat))) :: slot :: slots) id

-- The context slots of the first arguments, the last parameter's first.
def aliasedSlots (formals mapped : Nat) : List Nat := (List.range mapped).map fun index => 4 + formals - 1 - index

-- The parameter map names the context slots of the arguments that alias parameters; in the unmapped store they are holes.
def Graph.Aliases (graph : Graph) (context : NodeId) (formals mapped : Nat) (arguments : List NodeId) (id : NodeId) : Prop :=
  graph.Contains (graph.Names (.heap Root.sloppyArgumentsElementsMap) :: graph.Names (.number (.ofInt (mapped + 2 : Nat))) ::
    (· = context) ::
    graph.Backs (arguments.zipIdx.map fun entry =>
      if entry.2 < mapped then graph.Names (.heap Root.theHole) else (· = entry.1)) ::
    (aliasedSlots formals mapped).map fun slot : Nat => graph.Names (.number (.ofInt slot))) id

namespace CreationContext

-- The arguments that the frame of an inlined function, or the adaptor frame above it, records after the receiver.
def Records (c : CreationContext) (graph : Graph) (id : NodeId) (formals : UInt32) (arguments : List NodeId) : Prop :=
  ∃ state info shared outer calling parameters receiver, graph.frameStateInput? id = .ok (some state) ∧
    graph.op state = .ok (.frameState info) ∧ info.sharedInfo.bind c.heap.sharedInfo? = some shared ∧ shared.formals = formals ∧
    graph.valueInput state FrameStateInput.outer = .ok outer ∧ graph.op outer = .ok (.frameState calling) ∧
    graph.valueInput (if calling.kind = .argumentsAdaptor then outer else state) FrameStateInput.parameters = .ok parameters ∧
    graph.valueInputs parameters = .ok (receiver :: arguments)

-- The map, the length and the elements of an arguments object.
inductive Backed (graph : Graph) (id : NodeId) (formals : UInt32) (arguments : List NodeId) :
    ArgumentsKind → ObjectRef → Nat → List Action × Operand → Prop
  | unmapped {store : List Action × Operand} (made : plainArguments arguments = .ok store) :
      Backed graph id formals arguments .unmapped NativeContext.strictArgumentsMap arguments.length store
  | rest {store : List Action × Operand} {map : ObjectRef} (mapped : NativeContext.arrayMap? .packed = some map)
      (made : plainArguments (arguments.drop formals.toNat) = .ok store) :
      Backed graph id formals arguments .rest map (arguments.drop formals.toNat).length store
  | plain {store : List Action × Operand} (context : NodeId) (scope : graph.contextInput? id = .ok (some context))
      (none : min arguments.length formals.toNat = 0) (made : plainArguments arguments = .ok store) :
      Backed graph id formals arguments .mapped NativeContext.sloppyArgumentsMap arguments.length store
  | aliased {store : List Action × Operand} (context : NodeId) (scope : graph.contextInput? id = .ok (some context))
      (some : 0 < min arguments.length formals.toNat) (made : aliasedArguments arguments context formals = .ok store) :
      Backed graph id formals arguments .mapped NativeContext.fastAliasedArgumentsMap arguments.length store

section

variable (c : CreationContext) {graph : Graph} {id : NodeId} {formals : UInt32} {arguments : List NodeId} {plan : Plan}
  {kind : ArgumentsKind}

theorem none_aliased : (arguments.isEmpty || Decidable.decide (formals = 0)) ↔ min arguments.length formals.toNat = 0 := by
  rw [Nat.min_eq_zero_iff]
  simp [← UInt32.toNat_inj]

theorem inlined_arguments_cases {state : NodeId} {shared : SharedInfo}
    (decided : c.inlinedArguments graph id kind state shared = .ok (.inline plan)) :
    ∃ frame arguments callee map length store, argumentsState graph state = .ok frame ∧
      recordedArguments? graph frame = .ok (some arguments) ∧ graph.valueInput id 0 = .ok callee ∧
      Backed graph id shared.formals arguments kind map length store ∧
      plan.actions = store.1 ++ [.constant (.number (.ofInt length))] ∧
      plan.last = argumentsRegion kind map store.2 (.constant (.number (.ofInt length))) callee ∧ plan.ending = .become := by
  obtain ⟨_, decided⟩ := unless_declined decided
  obtain ⟨frame, found, decided⟩ := bind_eq_ok.mp decided
  obtain ⟨arguments?, recorded, decided⟩ := bind_eq_ok.mp decided
  cases arguments? with
  | none => cases decided
  | some arguments =>
    obtain ⟨_, _, decided⟩ := bind_eq_ok.mp decided
    obtain ⟨_, _, decided⟩ := bind_eq_ok.mp decided
    obtain ⟨_, decided⟩ := if_not_declined decided
    obtain ⟨callee, called, decided⟩ := bind_eq_ok.mp decided
    obtain ⟨context?, scope, decided⟩ := bind_eq_ok.mp decided
    obtain ⟨effect, _, decided⟩ := bind_eq_ok.mp decided
    refine ⟨frame, arguments, callee, ?_⟩
    cases kind with
    | unmapped =>
      obtain ⟨store, made, same⟩ := bind_eq_ok.mp decided
      cases same
      exact ⟨_, _, store, found, recorded, called, .unmapped made, rfl, rfl, rfl⟩
    | rest =>
      obtain ⟨store, made, same⟩ := bind_eq_ok.mp decided
      cases same
      exact ⟨_, _, store, found, recorded, called, .rest rfl made, rfl, rfl, rfl⟩
    | mapped =>
      cases context? with
      | none => cases decided
      | some context =>
        dsimp only at decided
        by_cases none : min arguments.length shared.formals.toNat = 0
        · rw [if_pos (none_aliased.mpr none)] at decided
          obtain ⟨store, made, same⟩ := bind_eq_ok.mp decided
          cases same
          exact ⟨_, _, store, found, recorded, called, .plain context scope none made, rfl, rfl, rfl⟩
        · rw [if_neg (fun empty => none (none_aliased.mp empty))] at decided
          obtain ⟨store, made, same⟩ := bind_eq_ok.mp decided
          cases same
          exact ⟨_, _, store, found, recorded, called, .aliased context scope (pos_of_ne_zero none) made, rfl, rfl, rfl⟩

theorem create_arguments_cases (records : c.Records graph id formals arguments)
    (decided : c.createArguments graph id kind = .ok (.inline plan)) :
    arguments.length < UInt32.size ∧ ∃ callee map length store, graph.valueInput id 0 = .ok callee ∧
      Backed graph id formals arguments kind map length store ∧
      plan.actions = store.1 ++ [.constant (.number (.ofInt length))] ∧
      plan.last = argumentsRegion kind map store.2 (.constant (.number (.ofInt length))) callee ∧ plan.ending = .become := by
  obtain ⟨state, info, shared, outer, calling, parameters, receiver, framed, stated, known, rfl, above, calls, listed, values⟩ := records
  obtain ⟨_, again, decided⟩ := bind_eq_ok.mp decided
  cases framed.symm.trans again
  obtain ⟨_, again, decided⟩ := bind_eq_ok.mp decided
  cases stated.symm.trans again
  dsimp only at decided
  rw [known] at decided
  obtain ⟨_, again, decided⟩ := bind_eq_ok.mp decided
  cases above.symm.trans again
  obtain ⟨_, again, decided⟩ := bind_eq_ok.mp decided
  cases calls.symm.trans again
  obtain ⟨frame, recorded, callee, map, length, store, found, read, rest⟩ := c.inlined_arguments_cases decided
  have same : frame = if calling.kind = .argumentsAdaptor then outer else state := by
    obtain ⟨_, again, found⟩ := bind_eq_ok.mp found
    cases above.symm.trans again
    obtain ⟨_, again, found⟩ := bind_eq_ok.mp found
    cases calls.symm.trans again
    exact (Except.ok.inj found).symm
  rw [← same] at listed
  obtain ⟨op, _, read⟩ := bind_eq_ok.mp read
  cases op with
  | frameState info =>
    obtain ⟨_, again, read⟩ := bind_eq_ok.mp read
    cases listed.symm.trans again
    obtain ⟨op, carried, read⟩ := bind_eq_ok.mp read
    cases op with
    | stateValues count =>
      dsimp only at read
      by_cases other : (count = 0 || count != info.parameterCount)
      · rw [if_pos other] at read
        cases read
      rw [if_neg other] at read
      obtain ⟨_, again, read⟩ := bind_eq_ok.mp read
      cases values.symm.trans again
      obtain ⟨_, _, read⟩ := bind_eq_ok.mp read
      cases read
      have short : arguments.length + 1 ≤ count.toNat := value_inputs_short carried values
      exact ⟨lt_of_lt_of_le (Nat.lt_of_succ_le short) (le_of_lt count.toNat_lt_size), callee, map, length, store, rest⟩
    | _ => cases read
  | _ => cases read

end

end CreationContext

-- What an operand reads, whatever is made later.
structure Graph.Stands (old new : Graph) (id : NodeId) (results : Array NodeId) (operand : Operand) (word : NodeId → Prop) :
    Prop where
  fresh : ∀ other, operand ≠ .node other
  safe : ∀ made ∈ results, Safe old id id made
  means : ∀ (later : Array NodeId) source, (∀ (place : Nat) made, results[place]? = some made → later[place]? = some made) →
    operand.Reads new later source → word source

section

variable {formals : UInt32} {old new : Graph} {id : NodeId} (turns : old.Turns new id) {control start : NodeId}
  {progress : Plan.Progress} {mades : List (List NodeId)} {store : List Action × Operand}

theorem made_stands {results : Array NodeId} {place : Nat} {ends : NodeId} {word : NodeId → Prop} (listed : results[place]? = some ends)
    (holds : word ends) (safe : ∀ made ∈ results, Safe old id id made) :
    old.Stands new id results (.made place) word := by
  refine ⟨by simp, safe, fun later source kept reads => ?_⟩
  cases (kept place ends listed).symm.trans reads
  exact holds

include turns

theorem slots_back {α : Type} {items : List α} {operand : α → Operand} (word : α → NodeId → Prop) {count : UInt32} {stores : List Store}
    {region : Region} {before after : Plan.Progress} {made : List NodeId} (some : items ≠ []) (counted : count.toNat = items.length)
    (listed : CreationContext.slotStores 0 (items.map operand) = .ok stores)
    (filled : Region.fixedArray count Root.fixedArrayMap .young stores = .ok region)
    (done : (Action.region region).At True old control before after made) (safe : ∀ made ∈ before.results, Safe old id id made)
    (kept : ∀ item ∈ items, ∀ other, operand item = .node other → Safe old id id other)
    (reads : ∀ item ∈ items, ∀ source, (operand item).Reads new before.results source → word item source) :
    ∃ ends, after.results = before.results.push ends ∧ new.Backs (items.map word) ends := by
  have spells := slots_spells (by rw [counted, length_map]) listed filled
  obtain ⟨ends, pushed, contains⟩ := region_made turns done safe spells (by
    intro other member
    simp only [Operand.heap, Operand.number, mem_cons, reduceCtorEq, false_or, mem_map] at member
    obtain ⟨item, member, same⟩ := member
    exact kept item member other same)
  have words : new.Contains (new.Names (.heap Root.fixedArrayMap) :: new.Names (.number (.ofInt items.length)) :: items.map word) ends := by
    refine Graph.contains_imp contains (.cons (fun _ named => named) (.cons (fun _ named => ?_) ?_))
    · rwa [length_map] at named
    · rw [forall₂_map_left_iff, forall₂_map_left_iff, forall₂_map_right_iff, forall₂_same]
      exact reads
  refine ⟨ends, pushed, ?_⟩
  cases items with
  | nil => exact absurd rfl some
  | cons item rest =>
    rw [map_cons, Graph.Backs, length_map]
    exact words

theorem plain_arguments_stand {values : List NodeId} (small : values.length < UInt32.size)
    (listed : CreationContext.plainArguments values = .ok store)
    (done : ActionsAt True old control { effect := start } store.1 mades progress) (kept : ∀ value ∈ values, Safe old id id value) :
    old.Stands new id progress.results store.2 (new.Backs (values.map fun value => (· = value))) := by
  cases values with
  | nil =>
    cases listed
    obtain ⟨made, done⟩ := actions_at_one done
    have goes := action_advances turns done trivial
    exact ⟨by simp [Operand.heap], goes.safe (by simp), fun _ _ _ reads => reads⟩
  | cons value rest =>
    obtain ⟨stores, stored, listed⟩ := bind_eq_ok.mp listed
    obtain ⟨region, filled, same⟩ := bind_eq_ok.mp listed
    cases same
    obtain ⟨made, done⟩ := actions_at_one done
    have goes := action_advances turns done trivial
    obtain ⟨ends, pushed, backs⟩ := slots_back turns (fun value => (· = value)) (cons_ne_nil value rest)
      (UInt32.toNat_ofNat_of_lt' small) stored filled done (by simp) (by simpa using kept) fun _ _ _ reads => reads
    exact made_stands (by rw [pushed]; rfl) backs (goes.safe (by simp))

omit turns in
theorem aliased_slots_name {count : Nat} {slots : List Constant} (named : (range count).mapM (fun index => do
      return Constant.number (.ofUInt32 (← CreationContext.aliasedSlot formals (UInt32.ofNat index)))) = .ok slots)
    (small : count ≤ formals.toNat) :
    slots = (aliasedSlots formals.toNat count).map fun slot : Nat => .number (.ofInt slot) := by
  rw [← map_id slots, aliasedSlots, map_map]
  refine map_m_maps _ _ named fun index member slot made => ?_
  obtain ⟨place, found, same⟩ := bind_eq_ok.mp made
  cases same
  obtain ⟨total, sum, found⟩ := bind_eq_ok.mp found
  obtain ⟨last, less, found⟩ := bind_eq_ok.mp found
  have sum : total.toNat = 4 + formals.toNat := checkedAdd_eq_ok.mp sum
  have less : total.toNat = last.toNat + 1 := checkedSub_eq_ok.mp less
  have found := checkedSub_eq_ok.mp found
  have inside := mem_range.mp member
  rw [UInt32.toNat_ofNat_of_lt' (lt_of_lt_of_le inside (le_trans small (le_of_lt formals.toNat_lt_size)))] at found
  rw [id, Function.comp, Double.ofUInt32, show place.toNat = 4 + formals.toNat - 1 - index by omega]

theorem aliased_arguments_stand {arguments : List NodeId} {context : NodeId} (small : arguments.length < UInt32.size)
    (some : 0 < min arguments.length formals.toNat)
    (listed : CreationContext.aliasedArguments arguments context formals = .ok store)
    (done : ActionsAt True old control { effect := start } store.1 mades progress)
    (kept : ∀ value ∈ arguments, Safe old id id value) (keeps : Safe old id id context) :
    old.Stands new id progress.results store.2
      (new.Aliases context formals.toNat (min arguments.length formals.toNat) arguments) := by
  have counted := UInt32.toNat_ofNat_of_lt' small
  have mapped : (min (UInt32.ofNat arguments.length) formals).toNat = min arguments.length formals.toNat := by
    show (if UInt32.ofNat arguments.length ≤ formals then UInt32.ofNat arguments.length else formals).toNat = _
    rw [apply_ite UInt32.toNat, counted, min_def]
    simp only [UInt32.le_iff_toNat_le, counted]
  simp only [CreationContext.aliasedArguments, mapped] at listed
  obtain ⟨stores, stored, listed⟩ := bind_eq_ok.mp listed
  obtain ⟨unmapped, filled, listed⟩ := bind_eq_ok.mp listed
  obtain ⟨slots, named, listed⟩ := bind_eq_ok.mp listed
  obtain ⟨count, sum, listed⟩ := bind_eq_ok.mp listed
  obtain ⟨entries, placed, listed⟩ := bind_eq_ok.mp listed
  obtain ⟨parameterMap, made, same⟩ := bind_eq_ok.mp listed
  cases same
  obtain ⟨_, _, last, _, early, ending⟩ := actions_at_append done
  obtain ⟨_, _, second, _, begins, constants⟩ := actions_at_append early
  obtain ⟨_, _, first, hole, begins⟩ := actions_at_cons begins
  obtain ⟨_, region⟩ := actions_at_one begins
  obtain ⟨_, whole⟩ := actions_at_one ending
  have opened := action_advances turns hole trivial
  have further := action_advances turns region trivial
  have later := actions_advance turns (by simp [Action.Stays]) constants
  have ended := action_advances turns whole trivial
  have safe := opened.safe (by simp)
  obtain ⟨inner, pushed, backs⟩ := slots_back turns
    (fun entry => if entry.2 < min arguments.length formals.toNat then new.Names (.heap Root.theHole) else (· = entry.1))
    (ne_nil_of_length_pos (by rw [length_zipIdx]; omega)) (by rw [counted, length_zipIdx]) stored filled region safe
    (by
      intro entry member other same
      by_cases hole : entry.2 < min arguments.length formals.toNat
      · rw [if_pos hole] at same
        cases same
      · rw [if_neg hole] at same
        cases same
        exact kept _ (fst_mem_of_mem_zipIdx member))
    (by
      intro entry _ source reads
      by_cases hole : entry.2 < min arguments.length formals.toNat
      · rw [if_pos hole] at reads ⊢
        exact reads
      · rw [if_neg hole] at reads ⊢
        exact reads)
  have reached : last.results[1]? = .some inner := by
    refine later.kept 1 inner ?_
    rw [pushed, ← show first.results.size = 1 from opened.size]
    exact Array.getElem?_push_size
  have total : count.toNat = min arguments.length formals.toNat + 2 := mapped ▸ checkedAdd_eq_ok.mp sum
  have many : slots.length = min arguments.length formals.toNat := (map_m_length named).trans length_range
  have long : ([Operand.node context, .made 1] ++ slots.map Operand.constant).length = min arguments.length formals.toNat + 2 := by
    simp [many]
  have spells := slots_spells (total.trans long.symm) placed made
  rw [long] at spells
  obtain ⟨ends, put, contains⟩ := region_made turns whole (later.safe (further.safe safe)) spells
    (by simpa [Operand.heap, Operand.number] using keeps)
  refine made_stands ?_ (Graph.contains_imp contains (.cons (fun _ named => named) (.cons (fun _ named => named)
    (.cons (fun _ read => read) (.cons (fun source read => ?_) ?_))))) (ended.safe (later.safe (further.safe safe)))
  · have size : last.results.size = slots.length + 2 := by
      rw [later.size, further.size, opened.size, length_map]
      exact add_comm _ _
    rw [put]
    simp [← size]
  · cases reached.symm.trans read
    exact backs
  · rw [aliased_slots_name named (Nat.min_le_right _ _)]
    change Forall₂ _ (map _ (map _ (map _ _))) _
    rw [forall₂_map_left_iff, forall₂_map_left_iff, forall₂_map_left_iff, forall₂_map_right_iff, forall₂_same]
    exact fun _ _ _ named => named

end

theorem arguments_spells {kind : ArgumentsKind} {map : ObjectRef} {elements length : Operand} {callee : NodeId} :
    (CreationContext.argumentsRegion kind map elements length callee).Spells (.heap map :: .heap Root.emptyFixedArray :: elements ::
      (CreationContext.argumentsFields kind length callee).filterMap Store.operand?) := by
  cases kind with
  | mapped =>
    refine object_spells rfl (append_nil _) ?_ rfl rfl
    simp [CreationContext.argumentsFields, FieldAccess.argumentsLength, FieldAccess.argumentsCallee]
  | unmapped =>
    refine object_spells rfl (append_nil _) ?_ rfl rfl
    simp [CreationContext.argumentsFields, FieldAccess.argumentsLength]
  | rest =>
    refine object_spells rfl (append_nil _) ?_ rfl rfl
    simp [CreationContext.argumentsFields]

def Graph.IsArguments (graph : Graph) (map : ObjectRef) (length : Nat) (elements : NodeId → Prop) (more : List (NodeId → Prop))
    (id : NodeId) : Prop :=
  graph.Contains (graph.Names (.heap map) :: graph.Names (.heap Root.emptyFixedArray) :: elements ::
    graph.Names (.number (.ofInt length)) :: more) id

-- The creation is an arguments object or an array of the rest now.
def CreationContext.HoldsArguments (before after : Graph) (id : NodeId) (formals : Nat) (arguments : List NodeId) : ArgumentsKind → Prop
  | .unmapped =>
    after.IsArguments NativeContext.strictArgumentsMap arguments.length (after.Backs (arguments.map fun value => (· = value))) [] id
  | .rest => ∃ map, NativeContext.arrayMap? .packed = some map ∧
    after.IsArguments map (arguments.length - formals) (after.Backs ((arguments.drop formals).map fun value => (· = value))) [] id
  | .mapped => ∃ callee context, before.valueInput id 0 = .ok callee ∧ before.contextInput? id = .ok (some context) ∧
    if min arguments.length formals = 0 then
      after.IsArguments NativeContext.sloppyArgumentsMap arguments.length
        (after.Backs (arguments.map fun value => (· = value))) [(· = callee)] id
    else
      after.IsArguments NativeContext.fastAliasedArgumentsMap arguments.length
        (after.Aliases context formals (min arguments.length formals) arguments) [(· = callee)] id

theorem arguments_hold_values (c : CreationContext) (s t : Workspace) (id : NodeId) (kind : ArgumentsKind) (formals : UInt32)
    (arguments : List NodeId) (outcome : Reduction) (interned : s.graph.Interned)
    (creates : s.graph.op id = .ok (.create (.arguments kind))) (records : c.Records s.graph id formals arguments)
    (unbypassed : ∀ value, value ∈ arguments ∨ s.graph.valueInput id 0 = .ok value ∨ s.graph.contextInput? id = .ok (some value) →
      s.graph.bypasses id value = false)
    (run : c.reduce id s = .ok outcome t) (rewritten : outcome ≠ .unchanged) :
    outcome = .changed id ∧ CreationContext.HoldsArguments s.graph t.graph id formals.toNat arguments kind ∧
      (aliasedSlots formals.toNat (min arguments.length formals.toNat)).Nodup ∧
      ∀ slot ∈ aliasedSlots formals.toNat (min arguments.length formals.toNat), 4 ≤ slot ∧ slot < 4 + formals.toNat := by
  obtain ⟨plan, decided, becomes⟩ := reduce_becomes c interned run rewritten
  rw [CreationContext.decide, creates] at decided
  obtain ⟨small, callee, map, length, store, called, backed, actions, last, ending⟩ := c.create_arguments_cases records decided
  obtain ⟨rfl, old, mades, progress, nodes, final, became⟩ := becomes ending
  have kept := fun value listed => became.kept value (unbypassed value listed)
  have done := became.actions
  rw [actions] at done
  obtain ⟨_, _, middle, _, begins, goes⟩ := actions_at_append done
  obtain ⟨_, measured⟩ := actions_at_one goes
  have further := action_advances became.turns measured trivial
  have whole : ∀ word, old.Stands t.graph id middle.results store.2 word →
      t.graph.Contains (t.graph.Names (.heap map) :: t.graph.Names (.heap Root.emptyFixedArray) :: word ::
        ((CreationContext.argumentsFields kind (.constant (.number (.ofInt length))) callee).filterMap Store.operand?).map
          (Operand.Reads t.graph progress.results)) id := by
    intro word stands
    have contains := region_contains became.turns (further.safe stands.safe) became.laid
      became.closes (last ▸ arguments_spells) ?_
    · refine Graph.contains_imp contains (.cons (fun _ named => named) (.cons (fun _ named => named) (.cons ?_ ?_)))
      · exact fun source reads => stands.means progress.results source further.kept reads
      · exact forall₂_same.mpr fun _ _ _ reads => reads
    intro other member
    simp only [Operand.heap, mem_cons, reduceCtorEq, false_or] at member
    rcases member with same | listed
    · exact absurd same.symm (stands.fresh other)
    · cases kind with
      | mapped =>
        simp only [CreationContext.argumentsFields, Store.operand?, filterMap_cons, filterMap_nil, mem_cons,
          reduceCtorEq, Operand.node.injEq, not_mem_nil, or_false, false_or] at listed
        exact kept other (.inr (.inl (listed ▸ called)))
      | _ => simp [CreationContext.argumentsFields, Store.operand?] at listed
  have plain := fun values small listed fine =>
    @plain_arguments_stand old t.graph id became.turns plan.control plan.effect middle _ store values
      small listed begins fine
  refine ⟨rfl, ?_, ?_, ?_⟩
  · cases backed with
    | unmapped made => exact whole _ (plain arguments small made fun value listed => kept value (.inl listed))
    | rest mapped made =>
      have short := lt_of_le_of_lt (length_drop ▸ Nat.sub_le arguments.length formals.toNat) small
      refine ⟨map, mapped, ?_⟩
      rw [← length_drop]
      exact whole _ (plain _ short made fun value listed => kept value (.inl (mem_of_mem_drop listed)))
    | plain context scope none made =>
      refine ⟨callee, context, called, scope, ?_⟩
      rw [if_pos none]
      exact whole _ (plain arguments small made fun value listed => kept value (.inl listed))
    | aliased context scope some made =>
      refine ⟨callee, context, called, scope, ?_⟩
      rw [if_neg (Nat.ne_of_gt some)]
      exact whole _ (aliased_arguments_stand became.turns small some made begins
        (fun value listed => kept value (.inl listed)) (kept context (.inr (.inr scope))))
  · refine Nodup.map_on (fun first listed second other same => ?_) nodup_range
    rw [mem_range] at listed other
    omega
  · simp only [aliasedSlots, mem_map, mem_range]
    omega

def CreationContext.withFunction (formals : UInt32) : CreationContext :=
  { heap := (Snapshot.initial.add (.sharedFunctionInfo ⟨.normal, formals, false, 0⟩)).2, config := {} }

-- An inlined function that was called with two arguments.
def calledWithTwo (kind : ArgumentsKind) : List Edit :=
  [.constant (.constant (.heap Root.undefined)), .numberConstant (.ofInt 5),
   .addNode (.frameState ⟨.interpreted, 0, 0, 0, none⟩) [2, 2, 2, 2, 2, 2] none, .addNode (.stateValues 3) [2, 2, 3] none,
   .addNode (.frameState ⟨.interpreted, 0, 3, 0, some ⟨32⟩⟩) [5, 2, 2, 2, 2, 4] none,
   .addNode (.create (.arguments kind)) [2, 2, 6, 0, 0] none]

theorem aliased_arguments_held :
    ∃ t, (CreationContext.withFunction 1).reduce 7 (.recording (.built (calledWithTwo .mapped))) = .ok (.changed 7) t ∧
      CreationContext.HoldsArguments (.built (calledWithTwo .mapped)) t.graph 7 1 [2, 3] .mapped := by
  obtain ⟨outcome, t, run, changed⟩ := reduced_check (.withFunction 1) 7 (.recording (.built (calledWithTwo .mapped)))
    (fun outcome _ => outcome = .changed 7) (by decide +kernel)
  rw [of_decide_eq_true changed] at run
  have callee : (Graph.built (calledWithTwo .mapped)).valueInput 7 0 = .ok 2 := by decide +kernel
  have context : (Graph.built (calledWithTwo .mapped)).contextInput? 7 = .ok (some 2) := by decide +kernel
  have held := arguments_hold_values (.withFunction 1) _ t 7 .mapped 1 [2, 3] _ (interned_check _ (by decide +kernel))
    (by decide +kernel) ⟨6, ⟨.interpreted, 0, 3, 0, some ⟨32⟩⟩, ⟨.normal, 1, false, 0⟩, 4, ⟨.interpreted, 0, 0, 0, none⟩, 5, 2,
      by decide +kernel⟩ ?_ run (by simp)
  · exact ⟨t, run, held.2.1⟩
  · rintro value (listed | called | scope)
    · revert value
      decide +kernel
    · cases callee.symm.trans called
      decide +kernel
    · cases context.symm.trans scope
      decide +kernel

theorem overwritten_count_not_stored :
    (∃ t, (CreationContext.withFunction 0).reduce 7 (.recording (.built (calledWithTwo .unmapped ++
        [.numberConstant (.ofInt 2), .changeOp 8 (.constant (.number (.ofInt 7)))]))) = .ok (.changed 7) t ∧
      ∀ store source, t.graph.source? store = some source → ¬ t.graph.Names (.number (.ofInt 2)) source) ∧
    ∃ t, (CreationContext.withFunction 0).reduce 7 (.recording (.built (calledWithTwo .unmapped ++
        [.addNode (.control .ifSuccess) [7] none, .replaceInput 5 1 8]))) = .ok (.changed 7) t ∧
      ∀ store, t.graph.source? store ≠ some 8 := by
  obtain ⟨t, run, sources⟩ := reduced_sources (.withFunction 0) 7 (.recording (.built (calledWithTwo .unmapped ++
      [.numberConstant (.ofInt 2), .changeOp 8 (.constant (.number (.ofInt 7)))])))
    (fun graph source => (graph.op source).toOption != some (.constant (.number (.ofInt 2)))) (by decide +kernel)
  obtain ⟨t', run', sources'⟩ := reduced_sources (.withFunction 0) 7 (.recording (.built (calledWithTwo .unmapped ++
      [.addNode (.control .ifSuccess) [7] none, .replaceInput 5 1 8]))) (fun _ source => source != 8) (by decide +kernel)
  refine ⟨⟨t, run, fun store source reads named => ?_⟩, t', run', fun store reads => ?_⟩
  · have other := sources store source reads
    rw [show t.graph.op source = .ok _ from named] at other
    simp [Except.toOption] at other
  · cases sources' store 8 reads

end SeaOfNodes
