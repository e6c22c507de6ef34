import SeaOfNodes.Proofs.Creation.Filled

/-! Arrays from their values: what each of them is stored as, and the checks that come before. -/

namespace SeaOfNodes

open List

variable {op : Operator} {operand : Operand} {type : ValueType} {made : List NodeId} {value : NodeId}
  {values : List NodeId} {kind : ElementsKind} {generation : Generation}

namespace CreationContext

-- The type of a value as far as it is known before; a value can be one of the nodes that are still to be made.
def Typed (c : CreationContext) (graph : Graph) (value : NodeId) (bound : ValueType) (answer : Bool) : Prop :=
  ∀ type, c.typeOf graph value = .ok type → type.within bound = answer

-- What is stored for a value, and the checks on the way.
inductive Element (c : CreationContext) (before after : Graph) (kind : ElementsKind) (value : NodeId) : NodeId → List NodeId → Prop
  | any (tagged : kind.isSmi = false) (boxed : kind.isDouble = false) : Element c before after kind value value []
  | small (smi : kind.isSmi = true) (typed : c.Typed before value .signedSmall true) : Element c before after kind value value []
  | checkedSmall (smi : kind.isSmi = true) (typed : c.Typed before value .signedSmall false) (check : NodeId)
      (checks : after.op check = .ok .checkSmi) (input : after.input check 0 = .ok value) :
      Element c before after kind value check [check]
  | number (double : kind.isDouble = true) (typed : c.Typed before value .number true) (silenced : NodeId)
      (silences : after.op silenced = .ok .silenceNaN) (input : after.input silenced 0 = .ok value) :
      Element c before after kind value silenced []
  | checkedNumber (double : kind.isDouble = true) (typed : c.Typed before value .number false) (check silenced : NodeId)
      (checks : after.op check = .ok .checkNumber) (input : after.input check 0 = .ok value)
      (silences : after.op silenced = .ok .silenceNaN) (checked : after.input silenced 0 = .ok check) :
      Element c before after kind value silenced [check]

-- The values that an array is made from: a single argument that is no number, or several.
inductive Lists (c : CreationContext) (graph : Graph) (id : NodeId) (site : AllocationSite) :
    UInt32 → List NodeId → ElementsKind → Prop
  | single (value : NodeId) (type : ValueType) (read : graph.valueInput id 2 = .ok value) (typed : c.typeOf graph value = .ok type)
      (other : type.meets .number = false) : Lists c graph id site 1 [value] site.elementsKind.toObject
  | several (arity : UInt32) (values : List NodeId) (many : 1 < arity) (read : graph.valueInputs id = .ok values) :
      Lists c graph id site arity (values.drop 2) site.elementsKind

section

variable {arity : UInt32} {site? : Option ObjectRef} {site : AllocationSite} (c : CreationContext) {graph : Graph} {id : NodeId}
  {plan : Plan}

theorem create_array_cases (decided : c.createArray graph id arity site? = .ok (.inline plan)) :
    ∃ site, site?.bind c.heap.allocationSite? = some site ∧ ∃ generation,
      (arity = 0 ∧ c.emptyArray graph id none site.elementsKind preallocatedElements generation = .ok (.inline plan) ∨
        (∃ length type capacity, arity = 1 ∧ graph.valueInput id 2 = .ok length ∧ c.typeOf graph length = .ok type ∧
          type.meets .number ∧ type.constantLength? = some capacity ∧
          c.emptyArray graph id (some length) site.elementsKind capacity generation = .ok (.inline plan)) ∨
        ∃ values kind, c.Lists graph id site arity values kind ∧ c.arrayOf graph id values kind generation = .ok (.inline plan)) := by
  obtain ⟨_, _, decided⟩ := bind_eq_ok.mp decided
  obtain ⟨_, _, decided⟩ := bind_eq_ok.mp decided
  obtain ⟨_, decided⟩ := unless_declined decided
  cases found : site?.bind c.heap.allocationSite? with
  | none =>
    rw [found] at decided
    cases decided
  | some site =>
    rw [found] at decided
    obtain ⟨_, decided⟩ := unless_declined decided
    refine ⟨site, rfl, c.generationOf site, ?_⟩
    by_cases none : arity = 0
    · rw [if_pos none] at decided
      exact .inl ⟨none, decided⟩
    rw [if_neg none] at decided
    by_cases one : arity = 1
    · rw [if_pos one] at decided
      obtain ⟨length, read, decided⟩ := bind_eq_ok.mp decided
      obtain ⟨type, typed, decided⟩ := bind_eq_ok.mp decided
      by_cases other : (!type.meets .number)
      · rw [if_pos other] at decided
        exact .inr (.inr ⟨_, _, one ▸ .single length type read typed (by simpa using other), decided⟩)
      rw [if_neg other] at decided
      cases known : type.constantLength? with
      | none =>
        rw [known] at decided
        cases decided
      | some capacity =>
        rw [known] at decided
        exact .inr (.inl ⟨length, type, capacity, one, read, typed, by simpa using other, known, (if_not_declined decided).2⟩)
    · rw [if_neg one] at decided
      obtain ⟨values, read, decided⟩ := bind_eq_ok.mp (if_not_declined decided).2
      refine .inr (.inr ⟨_, _, .several arity values ?_ read, decided⟩)
      have positive : arity.toNat ≠ 0 := fun zero => none (UInt32.toNat_inj.mp zero)
      have apart : arity.toNat ≠ 1 := fun single => one (UInt32.toNat_inj.mp single)
      exact UInt32.lt_iff_toNat_lt.mpr (show 1 < arity.toNat by omega)

structure ArrayPlan (c : CreationContext) (graph : Graph) (id : NodeId) (values : List NodeId) (kind : ElementsKind)
    (generation : Generation) (map : ObjectRef) (checks : List Action) (elements : List Operand) (store : Region) (plan : Plan) : Prop where
  mapped : NativeContext.arrayMap? kind = some map
  fits : ∃ size, kind.storeSize (UInt32.ofNat values.length) = .ok size ∧ size ≤ c.config.maxObjectSize
  effect : graph.effectInput id = .ok plan.effect
  checked : c.checkedElements graph kind values 0 = .ok (checks, elements)
  stored : Region.elements kind generation elements = .ok store
  actions : plan.actions = checks ++ [.region store, .constant (.number (.ofInt values.length))]
  last : plan.last = Region.array map kind generation (.made checks.length) (.constant (.number (.ofInt values.length)))
  ending : plan.ending = .become

theorem array_of_cases (decided : c.arrayOf graph id values kind generation = .ok (.inline plan)) :
    ∃ map checks elements store, c.ArrayPlan graph id values kind generation map checks elements store plan := by
  unfold arrayOf at decided
  cases mapped : NativeContext.arrayMap? kind with
  | none =>
    rw [mapped] at decided
    cases decided
  | some map =>
    rw [mapped] at decided
    obtain ⟨size, sized, decided⟩ := bind_eq_ok.mp decided
    obtain ⟨small, decided⟩ := if_not_declined decided
    obtain ⟨effect, before, decided⟩ := bind_eq_ok.mp decided
    obtain ⟨control, _, decided⟩ := bind_eq_ok.mp decided
    obtain ⟨⟨checks, elements⟩, checked, decided⟩ := bind_eq_ok.mp decided
    obtain ⟨store, stored, decided⟩ := bind_eq_ok.mp decided
    cases decided
    exact ⟨map, checks, elements, store, mapped, ⟨size, sized, of_decide_eq_true small⟩, before, checked, stored, rfl, rfl, rfl⟩

theorem lists_short (carried : graph.op id = .ok (.create (.array arity site?))) (lists : c.Lists graph id site arity values kind) :
    values.length < UInt32.size := by
  cases lists with
  | single value type read typed other => exact (by decide : 1 < UInt32.size)
  | several arity values many read =>
    have short : values.length ≤ 2 + arity.toNat := value_inputs_short carried read
    have bound := arity.toNat_lt_size
    rw [length_drop]
    omega

theorem lists_decided (known : site?.bind c.heap.allocationSite? = some site) (lists : c.Lists graph id site arity values kind)
    (decided : c.createArray graph id arity site? = .ok (.inline plan)) :
    ∃ generation, c.arrayOf graph id values kind generation = .ok (.inline plan) := by
  obtain ⟨found, again, generation, cases⟩ := create_array_cases c decided
  cases known.symm.trans again
  refine ⟨generation, ?_⟩
  cases lists with
  | single value type read typed other =>
    rcases cases with ⟨none, _⟩ | ⟨length, _, _, _, same, also, meets, _⟩ | ⟨_, _, listed, decided⟩
    · exact absurd none (by decide)
    · cases read.symm.trans same
      cases typed.symm.trans also
      rw [other] at meets
      cases meets
    · cases listed with
      | single length _ same _ _ =>
        cases read.symm.trans same
        exact decided
      | several _ _ many _ => exact absurd many (by decide)
  | several arity inputs many read =>
    rcases cases with ⟨rfl, _⟩ | ⟨_, _, _, rfl, _⟩ | ⟨_, _, listed, decided⟩
    · exact absurd many (by decide)
    · exact absurd many (by decide)
    · cases listed with
      | single _ _ _ _ _ => exact absurd many (by decide)
      | several _ _ _ same =>
        cases read.symm.trans same
        exact decided

end

end CreationContext

section

variable {next : Nat} {checks : List Action} {mades : List (List NodeId)} {old new : Graph} {id : NodeId}
  (turns : old.Turns new id) {control : NodeId} {before after : Plan.Progress}

include turns

theorem check_follows {user : NodeId} (done : (Action.node op [operand] type).At True old control before after made) (checks : op.checks)
    (one : op.layout.values = 1) (result : after.results[before.results.size]? = some user) :
    Safe old id id before.effect → new.Follows before.effect [user] after.effect ∧ Safe old id id after.effect := by
  obtain ⟨stays, fits, effects, outputs, position⟩ := op.checks_shape checks
  obtain ⟨other, sources, _, rfl, stand, has⟩ := done
  cases (by simp : _ = some other).symm.trans result
  obtain ⟨source, _, _, rest, rfl⟩ := forall₂_cons_left_iff.mp stand
  cases rest
  rw [if_pos outputs]
  obtain ⟨request, creation, created, asked⟩ := turns.creation
  intro fine
  refine ⟨⟨?_, rfl⟩, Graph.safe_of_performs request creation created asked user op (old.has_performs _ has) stays⟩
  refine Graph.settled_effect turns.settled request creation created asked user op _ has stays fits effects before.effect ?_ fine
  rw [if_pos effects, position, one]
  rfl

variable (safe : ∀ made ∈ before.results, Safe old id id made)

include safe

theorem node_done (done : (Action.node op [operand] type).At True old control before after made) (stays : op.stays)
    (value : op.layout.edgeKind 0 = .value) (kept : ∀ other, operand = .node other → Safe old id id other) :
    ∃ user, after.results[before.results.size]? = some user ∧ new.op user = .ok op ∧
      ∃ source, new.input user 0 = .ok source ∧ operand.Reads new before.results source := by
  obtain ⟨user, sources, _, rfl, stand, has⟩ := done
  obtain ⟨source, _, stands, rest, rfl⟩ := forall₂_cons_left_iff.mp stand
  obtain ⟨reads, fine⟩ := operand_reads turns safe stands kept
  obtain ⟨request, creation, created, asked⟩ := turns.creation
  refine ⟨user, by simp, Graph.settled_performs turns.settled request creation created asked user op (old.has_performs _ has) stays,
    source, ?_, reads⟩
  exact Graph.settled_edge turns.settled request creation created asked user op _ has stays 0 value source (by simp) fine

variable (c : CreationContext) {graph : Graph} {kind : ElementsKind}

omit turns safe in
theorem typed_of_element_type {next : Nat} (bound : ValueType) (typed : c.elementType graph kind value next = .ok type) : c.Typed graph value bound (type.within bound) := by
  intro other known
  rw [CreationContext.elementType] at typed
  by_cases made : (graph.size ≤ value && value < graph.size + next)
  · obtain ⟨node, read, _⟩ := bind_eq_ok.mp known
    rw [Bool.and_eq_true, decide_eq_true_eq] at made
    exact absurd (graph.node_lt (present_eq_ok.mp read)) (Nat.not_lt_of_le made.1)
  · rw [if_neg made] at typed
    cases typed.symm.trans known
    rfl

theorem checked_element_done (run : c.checkedElement graph kind value next = .ok (checks, operand)) (counted : before.results.size = next)
    (done : ActionsAt True old control before checks mades after) (kept : Safe old id id value) :
    (∀ action ∈ checks, action.Stays) ∧ ∃ stored path, c.Element graph new kind value stored path ∧
      operand.Reads new after.results stored ∧ (operand = .node value ∨ ∃ action, operand = .made action) ∧
      (Safe old id id before.effect → new.Follows before.effect path after.effect ∧ Safe old id id after.effect) := by
  have input : ∀ other, Operand.node value = .node other → Safe old id id other := fun other same => by cases same; exact kept
  obtain ⟨type, typed, run⟩ := bind_eq_ok.mp run
  have typed := fun bound => typed_of_element_type c bound typed
  by_cases smi : kind.isSmi
  · rw [if_pos smi] at run
    by_cases fits : type.within .signedSmall
    · rw [if_pos fits] at run
      cases run
      cases actions_at_none done
      exact ⟨by simp, value, [], .small smi (fits ▸ typed _), rfl, .inl rfl, fun fine => ⟨rfl, fine⟩⟩
    · rw [if_neg fits] at run
      cases run
      obtain ⟨made, done⟩ := actions_at_one done
      obtain ⟨user, result, performs, source, edge, reads⟩ := node_done turns safe done rfl rfl input
      cases reads
      exact ⟨by simp [Action.Stays, Operator.stays], user, [user],
        .checkedSmall smi (Bool.eq_false_iff.mpr fits ▸ typed _) user performs edge, counted ▸ result,
        .inr ⟨_, rfl⟩, check_follows turns done rfl rfl result⟩
  · rw [if_neg smi] at run
    by_cases double : kind.isDouble
    · rw [if_pos double] at run
      by_cases fits : type.within .number
      · rw [if_pos fits] at run
        cases run
        obtain ⟨made, done⟩ := actions_at_one done
        obtain ⟨user, result, performs, source, edge, reads⟩ := node_done turns safe done rfl rfl input
        cases reads
        obtain ⟨_, _, _, rfl, _⟩ := done
        exact ⟨by simp [Action.Stays, Operator.stays], user, [], .number double (fits ▸ typed _) user performs edge,
          counted ▸ result, .inr ⟨_, rfl⟩, fun fine => ⟨rfl, fine⟩⟩
      · rw [if_neg fits] at run
        cases run
        obtain ⟨made, more, middle, first, later⟩ := actions_at_cons done
        obtain ⟨_, second⟩ := actions_at_one later
        obtain ⟨check, checked, checks, source, edge, reads⟩ := node_done turns safe first rfl rfl input
        cases reads
        have advances := action_advances turns first rfl
        obtain ⟨user, result, performs, source, feeds, reads⟩ := node_done turns (advances.safe safe) second rfl rfl (by simp)
        cases reads.symm.trans (counted ▸ checked)
        rw [advances.size, counted] at result
        have path := check_follows turns first rfl rfl checked
        obtain ⟨_, _, _, rfl, _⟩ := second
        exact ⟨by simp [Action.Stays, Operator.stays], user, [check],
          .checkedNumber double (Bool.eq_false_iff.mpr fits ▸ typed _) check user checks edge performs feeds, result,
          .inr ⟨_, rfl⟩, path⟩
    · rw [if_neg double] at run
      cases run
      cases actions_at_none done
      exact ⟨by simp, value, [], .any (Bool.eq_false_iff.mpr smi) (Bool.eq_false_iff.mpr double), rfl, .inl rfl,
        fun fine => ⟨rfl, fine⟩⟩

theorem checked_elements_done {elements : List Operand} (run : c.checkedElements graph kind values next = .ok (checks, elements))
    (counted : before.results.size = next) (done : ActionsAt True old control before checks mades after)
    (kept : ∀ value ∈ values, Safe old id id value) :
    (∀ action ∈ checks, action.Stays) ∧ ∃ stored : List (NodeId × List NodeId),
      Forall₂ (fun value entry => c.Element graph new kind value entry.1 entry.2) values stored ∧
      Forall₂ (fun operand entry => ∀ source, operand.Reads new after.results source → source = entry.1) elements stored ∧
      (∀ other, .node other ∈ elements → other ∈ values) ∧
      (Safe old id id before.effect →
        new.Follows before.effect (stored.flatMap Prod.snd) after.effect ∧ Safe old id id after.effect) := by
  induction values generalizing before next checks elements mades with
  | nil =>
    cases run
    cases actions_at_none done
    exact ⟨by simp, [], .nil, .nil, by simp, fun fine => ⟨rfl, fine⟩⟩
  | cons value rest ih =>
    obtain ⟨⟨first, operand⟩, here, run⟩ := bind_eq_ok.mp run
    obtain ⟨⟨further, operands⟩, there, same⟩ := bind_eq_ok.mp run
    cases same
    obtain ⟨early, late, middle, rfl, begins, goes⟩ := actions_at_append done
    obtain ⟨now, others⟩ := forall_mem_cons.mp kept
    obtain ⟨stays, entry, path, element, reads, shape, leads⟩ :=
      checked_element_done turns safe c here counted begins now
    have advances := actions_advance turns stays begins
    obtain ⟨stay, stored, all, read, nodes, follows⟩ :=
      ih (advances.safe safe) there (by rw [advances.size, counted]) goes others
    have later := actions_advance turns stay goes
    refine ⟨forall_mem_append.mpr ⟨stays, stay⟩, (entry, path) :: stored, .cons element all,
      .cons (fun source again => ?_) read, fun other member => ?_, fun fine => ?_⟩
    · refine reads_unique (reads_kept reads later.kept) again fun value same => ?_
      rcases shape with rfl | ⟨action, rfl⟩ <;> cases same
    · rcases mem_cons.mp member with same | later
      · rcases shape with rfl | ⟨action, rfl⟩
        · cases same
          exact mem_cons_self
        · cases same
      · exact mem_cons_of_mem _ (nodes other later)
    · obtain ⟨begins, between⟩ := leads fine
      obtain ⟨goes, ends⟩ := follows between
      exact ⟨new.follows_append _ _ _ _ _ begins goes, ends⟩

end

theorem array_spells {map : ObjectRef} {elements length : Operand} :
    (Region.array map kind generation elements length).Spells [.heap map, .heap Root.emptyFixedArray, elements, length] := by
  refine object_spells rfl (append_nil _) (by simp) ?_ rfl
  rw [Store.offsets_field, array_length_offset]
  rfl

-- The creation is an array of the values now: its map, its length, its store with one element for each value, and the checks in
-- the order of the values before anything is allocated.
def CreationContext.HoldsValues (c : CreationContext) (before after : Graph) (id : NodeId) (values : List NodeId)
    (kind : ElementsKind) : Prop :=
  ∃ map stored, NativeContext.arrayMap? kind = some map ∧
    List.Forall₂ (fun value entry => c.Element before after kind value entry.1 entry.2) values stored ∧
    after.Contains [after.Names (.heap map), after.Names (.heap Root.emptyFixedArray),
      after.Contains (after.Names (.heap (if kind.isDouble then Root.fixedDoubleArrayMap else Root.fixedArrayMap)) ::
        after.Names (.number (.ofInt values.length)) :: stored.map fun entry => (· = entry.1)),
      after.Names (.number (.ofInt values.length))] id ∧
    ∀ effect, before.effectInput id = .ok effect → before.bypasses id effect = false →
      ∃ begins first generation, after.Follows effect (stored.flatMap Prod.snd ++ [begins, first]) first ∧
        after.op begins = .ok .beginRegion ∧ after.op first = .ok (.allocate generation)

theorem array_holds_values (c : CreationContext) (s t : Workspace) (id : NodeId) (arity : UInt32) (site? : Option ObjectRef)
    (site : AllocationSite) (values : List NodeId) (kind : ElementsKind) (outcome : Reduction) (interned : s.graph.Interned)
    (creates : s.graph.op id = .ok (.create (.array arity site?))) (known : site?.bind c.heap.allocationSite? = some site)
    (lists : c.Lists s.graph id site arity values kind) (unbypassed : ∀ value ∈ values, s.graph.bypasses id value = false)
    (run : c.reduce id s = .ok outcome t) (rewritten : outcome ≠ .unchanged) :
    outcome = .changed id ∧ c.HoldsValues s.graph t.graph id values kind := by
  obtain ⟨plan, decided, becomes⟩ := reduce_becomes c interned run rewritten
  rw [CreationContext.decide, creates] at decided
  obtain ⟨generation, decided⟩ := c.lists_decided known lists decided
  obtain ⟨map, checks, elements, store, array⟩ := c.array_of_cases decided
  obtain ⟨rfl, old, mades, progress, nodes, last, became⟩ := becomes array.ending
  obtain ⟨request, creation, created, asked⟩ := became.turns.creation
  have kept : ∀ value ∈ values, Safe old id id value := fun value member => became.kept value (unbypassed value member)
  have actions := became.actions
  rw [array.actions] at actions
  obtain ⟨early, late, middle, rfl, begins, goes⟩ := actions_at_append actions
  obtain ⟨stay, stored, stands, reads, listed, follows⟩ :=
    checked_elements_done became.turns (by simp) c array.checked rfl begins kept
  have advances := actions_advance became.turns stay begins
  have safe := advances.safe (by simp)
  obtain ⟨made, more, next, region, later⟩ := actions_at_cons goes
  obtain ⟨_, measured⟩ := actions_at_one later
  have further := action_advances became.turns region trivial
  have ending := action_advances became.turns measured trivial
  obtain ⟨region, lastStore, ends, _, rfl, laid, has⟩ := region
  have closes := region_closes became.turns.settled request creation created asked laid has
  have counted : elements.length = values.length := reads.length_eq.trans stands.length_eq.symm
  have spelled := elements_spells kind (counted ▸ c.lists_short creates lists) array.stored
  have filled := region_contains became.turns safe laid closes spelled fun other member =>
    kept other (listed other (by simpa [Operand.heap, Operand.number] using member))
  have held : progress.results[checks.length]? = some ends := by
    refine ending.kept _ ends ?_
    have place : middle.results.size = checks.length := by simpa using advances.size
    rw [← place]
    simp
  have spells : plan.last.Spells [.heap map, .heap Root.emptyFixedArray, .made checks.length,
      .constant (.number (.ofInt values.length))] := by
    rw [array.last]
    exact array_spells
  have whole := region_contains became.turns (ending.safe (further.safe safe)) became.laid
    became.closes spells (by simp [Operand.heap])
  refine ⟨rfl, map, stored, array.mapped, stands, Graph.contains_imp whole ?_, fun effect read free => ?_⟩
  · refine .cons (fun _ named => named) (.cons (fun _ named => named) (.cons (fun source found => ?_) (.cons (fun _ named => named) .nil)))
    cases held.symm.trans found
    refine Graph.contains_imp filled (.cons (fun _ named => named) (.cons (fun _ named => counted ▸ named) ?_))
    rw [forall₂_map_left_iff, forall₂_map_right_iff]
    exact reads
  · cases read.symm.trans array.effect
    obtain ⟨path, fine⟩ := follows (became.kept plan.effect free)
    obtain ⟨opens, allocates, _, _, _, _, chain⟩ :=
      region_lands became.turns.settled request creation created asked laid
    have chain := chain fine
    exact ⟨region.begins, region.object, store.generation,
      t.graph.follows_append _ _ _ _ _ path ⟨chain.1, chain.2.1, rfl⟩, opens, allocates⟩

theorem pair_of_smis_held : ∃ t, CreationContext.pretenuring.reduce 3 (.recording (.built pairOfSmis)) = .ok (.changed 3) t ∧
      CreationContext.pretenuring.HoldsValues (.built pairOfSmis) t.graph 3 [2, 2] .packedSmi := by
  obtain ⟨outcome, t, run, changed⟩ := reduced_check .pretenuring 3 (.recording (.built pairOfSmis))
    (fun outcome _ => outcome = .changed 3) (by decide +kernel)
  rw [of_decide_eq_true changed] at run
  have held := array_holds_values .pretenuring _ t 3 2 (some ⟨32⟩) ⟨none, .packedSmi, .old, true⟩ [2, 2] .packedSmi _
    (interned_check _ (by decide +kernel)) (by decide +kernel) (by decide +kernel)
    (.several 2 [2, 2, 2, 2] (by decide) (by decide +kernel)) (by decide +kernel) run (by simp)
  exact ⟨t, run, held.2⟩

def CreationContext.withArraySite : CreationContext :=
  { heap := (Snapshot.initial.add (.allocationSite ⟨none, .packed, .young, true⟩)).2, config := {} }

-- The constant that says 2 has come to say 7 behind the back of the table of constants.
def overwrittenLength : List Edit :=
  [.numberConstant (.ofInt 2), .changeOp 2 (.constant (.number (.ofInt 7))), .constant (.constant (.heap Root.undefined)),
   .addNode (.create (.array 2 (some ⟨32⟩))) [3, 3, 3, 3, 3, 3, 0, 0] none]

-- The first value of an array is its own success.
def ownSuccess : List Edit :=
  [.constant (.constant (.heap Root.undefined)), .addNode (.create (.array 2 (some ⟨32⟩))) [2, 2, 2, 2, 2, 2, 0, 0] none,
   .addNode (.control .ifSuccess) [3] none, .replaceInput 3 2 4]

theorem overwritten_length_not_stored :
    (∃ t, CreationContext.withArraySite.reduce 4 (.recording (.built overwrittenLength)) = .ok (.changed 4) t ∧
      ∀ store source, t.graph.source? store = some source → ¬ t.graph.Names (.number (.ofInt 2)) source) ∧
    ∃ t, CreationContext.withArraySite.reduce 3 (.recording (.built ownSuccess)) = .ok (.changed 3) t ∧
      (Graph.built ownSuccess).valueInputs 3 = .ok [2, 2, 4, 2] ∧ ∀ store, t.graph.source? store ≠ some 4 := by
  obtain ⟨t, run, sources⟩ := reduced_sources .withArraySite 4 (.recording (.built overwrittenLength))
    (fun graph source => (graph.op source).toOption != some (.constant (.number (.ofInt 2)))) (by decide +kernel)
  obtain ⟨t', run', sources'⟩ := reduced_sources .withArraySite 3 (.recording (.built ownSuccess)) (fun _ source => source != 4)
    (by decide +kernel)
  refine ⟨⟨t, run, fun store source reads named => ?_⟩, t', run', by decide +kernel, fun store reads => ?_⟩
  · have other := sources store source reads
    rw [show t.graph.op source = .ok _ from named] at other
    simp [Except.toOption] at other
  · cases sources' store 4 reads

end SeaOfNodes
