import SeaOfNodes.Proofs.Creation.Memory

/-! What the objects of an inline creation hold when it is over. -/

namespace SeaOfNodes

open List SeaOfNodes.Graph

variable {operand : Operand} {made : List NodeId} {action : Action} {ends source : NodeId}

-- Stores that write one word after the other, and nothing else.
structure Region.Spells (region : Region) (operands : List Operand) : Prop where
  size : region.size.toNat = 8 * operands.length
  wide : ∀ store ∈ region.allStores, store.Wide
  places : Store.offsets region.allStores = Layout.words (8 * operands.length)
  values : region.allStores.map Store.operand? = operands.map some

namespace Graph

def Names (graph : Graph) (value : Constant) (id : NodeId) : Prop := graph.op id = .ok (.constant value)

-- A region around an object of so many words, in which each store writes the next of them.
def Contains (graph : Graph) (words : List (NodeId → Prop)) (ends : NodeId) : Prop :=
  ∃ object stores last, graph.op ends = .ok .finishRegion ∧ graph.input ends 0 = .ok object ∧
    graph.effectInput ends = .ok last ∧ graph.Follows object stores last ∧
    (graph.allocated? object).map UInt32.toNat = some (8 * words.length) ∧
    (∀ store ∈ stores, graph.input store 0 = .ok object) ∧
    stores.map graph.written? = (Layout.words (8 * words.length)).map (fun offset => some (offset, 8)) ∧
    List.Forall₂ (fun word store => ∃ source, graph.source? store = some source ∧ word source) words stores

theorem contains_imp {graph : Graph} {first second : List (NodeId → Prop)} (contains : graph.Contains first ends)
    (implies : Forall₂ (fun word next : NodeId → Prop => ∀ id, word id → next id) first second) :
    graph.Contains second ends := by
  obtain ⟨object, stores, last, performs, edge, effect, follows, size, into, written, words⟩ := contains
  rw [implies.length_eq] at size written
  refine ⟨object, stores, last, performs, edge, effect, follows, size, into, written, ?_⟩
  clear size written follows into
  induction implies generalizing stores with
  | nil => exact words
  | cons here _ ih =>
    obtain ⟨store, rest, ⟨source, found, holds⟩, later, rfl⟩ := forall₂_cons_left_iff.mp words
    exact .cons ⟨source, found, here source holds⟩ (ih rest later)

end Graph

section

variable {plan : Plan} {condition : Prop} [Decidable condition] {rest : Except Fault Decision}

theorem unless_declined (decided : (if condition then pure .decline else rest) = .ok (.inline plan)) :
    ¬ condition ∧ rest = .ok (.inline plan) := by
  by_cases holds : condition
  · rw [if_pos holds] at decided
    cases decided
  · exact ⟨holds, by rwa [if_neg holds] at decided⟩

theorem if_not_declined (decided : (if condition then rest else pure .decline) = .ok (.inline plan)) :
    condition ∧ rest = .ok (.inline plan) := by
  by_cases holds : condition
  · exact ⟨holds, by rwa [if_pos holds] at decided⟩
  · rw [if_neg holds] at decided
    cases decided

end

def Operand.Reads (graph : Graph) (results : Array NodeId) : Operand → NodeId → Prop
  | .node other, id => id = other
  | .constant value, id => graph.Names value id
  | .made action, id => results[action]? = some id

-- A creation that has become the end of a region, in place.
structure Graph.Turns (old new : Graph) (id : NodeId) : Prop where
  settled : Graph.Settled old id id new
  creation : ∃ request creation, old.node? id = some creation ∧ creation.op = .create request

section

variable {generation : Generation} {object before last : NodeId} {operands : List Operand} {region : Region} {nodes : RegionNodes}
  {old new : Graph} {id : NodeId} (turns : old.Turns new id) {results : Array NodeId}
  (safe : ∀ made ∈ results, Safe old id id made) {control : NodeId}

include turns safe

theorem operand_reads (stands : operand.At True old results source)
    (kept : ∀ other, operand = .node other → Safe old id id other) :
    operand.Reads new results source ∧ Safe old id id source := by
  obtain ⟨request, creation, created, asked⟩ := turns.creation
  cases operand with
  | node other =>
    cases stands
    exact ⟨rfl, kept _ rfl⟩
  | constant value =>
    have shown := old.denotes_performs source (stands.2 trivial)
    exact ⟨settled_performs turns.settled request creation created asked source _ shown rfl,
      safe_of_performs request creation created asked source _ shown rfl⟩
  | made action => exact ⟨stands, safe source (Array.mem_of_getElem? stands)⟩

theorem store_reads {store : Store} {user : NodeId} (done : store.At True old results control generation object before user)
    (held : store.operand? = some operand) (kept : ∀ other, operand = .node other → Safe old id id other) :
    ∃ source, new.source? user = some source ∧ operand.Reads new results source := by
  obtain ⟨request, creation, created, asked⟩ := turns.creation
  have edge := settled_edge turns.settled request creation created asked user
  have carry := settled_performs turns.settled request creation created asked user
  cases store with
  | field access value =>
    cases held
    obtain ⟨source, stands, has⟩ := done
    obtain ⟨reads, fine⟩ := operand_reads turns safe stands kept
    have performs : new.op user = .ok _ := carry _ (old.has_performs _ has) rfl
    have input : new.input user 1 = .ok source := edge _ _ has rfl 1 rfl source rfl fine
    exact ⟨source, by rw [source?, performs, input]; rfl, reads⟩
  | element access index value =>
    cases held
    obtain ⟨place, source, _, stands, has⟩ := done
    obtain ⟨reads, fine⟩ := operand_reads turns safe stands kept
    have performs : new.op user = .ok _ := carry _ (old.has_performs _ has) rfl
    have input : new.input user 2 = .ok source := edge _ _ has rfl 2 rfl source rfl fine
    exact ⟨source, by rw [source?, performs, input]; rfl, reads⟩
  | misplaced fault => cases held

theorem stores_read {stores : List Store} {ids : List NodeId}
    (done : StoresAt True old results control generation object before stores ids last)
    (held : stores.map Store.operand? = operands.map some) (kept : ∀ other, .node other ∈ operands → Safe old id id other) :
    Forall₂ (fun word store => ∃ source, new.source? store = some source ∧ word source)
      (operands.map (Operand.Reads new results)) ids := by
  induction stores generalizing before ids operands with
  | nil =>
    cases map_eq_nil_iff.mp held.symm
    cases ids with
    | nil => exact .nil
    | cons user rest => exact done.elim
  | cons store rest ih =>
    obtain ⟨operand, operands, rfl, here, there⟩ := map_eq_cons_iff.mp held.symm
    cases ids with
    | nil => exact done.elim
    | cons user ids =>
      refine .cons ?_ (ih done.2 there.symm fun other member => kept other (mem_cons_of_mem _ member))
      exact store_reads turns safe done.1 here.symm fun other same =>
        kept other (same ▸ mem_cons_self)

omit safe in
theorem region_written (done : region.At True old results control before nodes last)
    (wide : ∀ store ∈ region.allStores, store.Wide) :
    new.allocated? nodes.object = some region.size ∧ new.Follows nodes.object nodes.stores last ∧
      (∀ store ∈ nodes.stores, new.input store 0 = .ok nodes.object) ∧
      nodes.stores.map new.written? = (Store.offsets region.allStores).map fun offset => some (offset, 8) := by
  obtain ⟨request, creation, created, asked⟩ := turns.creation
  obtain ⟨_, allocates, bytes, lands, follows, _⟩ :=
    region_lands turns.settled request creation created asked done
  obtain ⟨source, edge, constant⟩ := bytes trivial
  rw [Performs] at allocates constant
  rw [Edge] at edge
  refine ⟨?_, follows, lands_into _ _ _ _ lands, (lands_all_written _ _ _ _ wide lands).2⟩
  simp only [allocated?, allocates, edge, constant, UInt32.toUInt32_toInt32]

theorem region_contains (done : region.At True old results control before nodes last)
    (closes : new.Performs ends .finishRegion ∧ new.Edge ends 0 nodes.object ∧ new.effectInput ends = .ok last)
    (spells : region.Spells operands) (kept : ∀ other, .node other ∈ operands → Safe old id id other) :
    new.Contains (operands.map (Operand.Reads new results)) ends := by
  obtain ⟨size, follows, into, written⟩ := region_written turns done spells.wide
  refine ⟨nodes.object, nodes.stores, last, closes.1, closes.2.1, closes.2.2, follows, ?_, into, ?_,
    stores_read turns safe done.stores spells.values kept⟩
  · rw [size, Option.map_some, spells.size, length_map]
  · rw [written, spells.places, length_map]

omit safe in
theorem region_made {before after : Plan.Progress}
    (done : (Action.region region).At True old control before after made) (all : ∀ made ∈ before.results, Safe old id id made)
    (spells : region.Spells operands) (kept : ∀ other, .node other ∈ operands → Safe old id id other) :
    ∃ ends, after.results = before.results.push ends ∧ new.Contains (operands.map (Operand.Reads new before.results)) ends := by
  obtain ⟨nodes, last, ends, _, rfl, laid, has⟩ := done
  obtain ⟨request, creation, created, asked⟩ := turns.creation
  have closes := region_closes turns.settled request creation created asked laid has
  exact ⟨ends, rfl, region_contains turns all laid closes spells kept⟩

end

theorem map_m_maps {α β γ : Type} {items : List α} {step : α → Except Fault β} {results : List β} (seen : β → γ) (means : α → γ)
    (run : items.mapM step = .ok results) (each : ∀ item ∈ items, ∀ result, step item = .ok result → seen result = means item) :
    results.map seen = items.map means := by
  induction items generalizing results with
  | nil =>
    cases run
    rfl
  | cons item rest ih =>
    obtain ⟨here, later⟩ := forall_mem_cons.mp each
    rw [mapM_cons] at run
    obtain ⟨result, first, run⟩ := bind_eq_ok.mp run
    obtain ⟨others, further, same⟩ := bind_eq_ok.mp run
    cases same
    rw [map_cons, map_cons, here result first, ih further later]

section

variable {mades : List (List NodeId)} {old new : Graph} {id : NodeId} {control : NodeId} {before after : Plan.Progress}

theorem actions_at_none (done : ActionsAt True old control before [] mades after) : before = after := by
  cases mades with
  | nil => exact done
  | cons made more => exact done.elim

theorem actions_at_cons {rest : List Action} (done : ActionsAt True old control before (action :: rest) mades after) :
    ∃ made more middle, action.At True old control before middle made ∧ ActionsAt True old control middle rest more after := by
  cases mades with
  | nil => exact done.elim
  | cons made more =>
    obtain ⟨middle, here, later⟩ := done
    exact ⟨made, more, middle, here, later⟩

theorem actions_at_one (done : ActionsAt True old control before [action] mades after) :
    ∃ made, action.At True old control before after made := by
  obtain ⟨made, more, middle, here, later⟩ := actions_at_cons done
  cases actions_at_none later
  exact ⟨made, here⟩

def Action.Stays : Action → Prop
  | .node op .. => op.stays = true
  | _ => True

-- Results are added at the end, and edges to them keep their targets.
structure Graph.Advances (old : Graph) (id : NodeId) (count : Nat) (before after : Plan.Progress) : Prop where
  size : after.results.size = before.results.size + count
  kept : ∀ (place : Nat) made, before.results[place]? = some made → after.results[place]? = some made
  safe : (∀ made ∈ before.results, Safe old id id made) → ∀ made ∈ after.results, Safe old id id made

theorem action_advances (turns : old.Turns new id) (done : action.At True old control before after made)
    (stays : action.Stays) : old.Advances id 1 before after := by
  have push : ∀ user, after.results = before.results.push user → Safe old id id user → old.Advances id 1 before after := by
    intro user same safe
    refine ⟨by rw [same, Array.size_push], fun place made listed => ?_, fun all made member => ?_⟩
    · obtain ⟨inside, value⟩ := Array.getElem?_eq_some_iff.mp listed
      rw [same, Array.getElem?_push_lt inside, value]
    · rw [same, Array.mem_push] at member
      rcases member with earlier | rfl
      · exact all made earlier
      · exact safe
  obtain ⟨request, creation, created, asked⟩ := turns.creation
  have safe := fun user op => @safe_of_performs old id id request creation created asked user op
  cases action with
  | constant value =>
    obtain ⟨user, _, rfl, means⟩ := done
    exact push user rfl (safe user _ (old.denotes_performs user (means.2 trivial)) rfl)
  | node op values type =>
    obtain ⟨user, _, _, rfl, _, has⟩ := done
    exact push user rfl (safe user op (old.has_performs _ has) stays)
  | region region =>
    obtain ⟨_, _, ends, _, rfl, _, has⟩ := done
    exact push ends rfl (safe ends _ (old.has_performs _ has) rfl)

theorem actions_advance (turns : old.Turns new id) {actions : List Action} (stay : ∀ action ∈ actions, action.Stays)
    (done : ActionsAt True old control before actions mades after) : old.Advances id actions.length before after := by
  induction actions generalizing mades before with
  | nil =>
    cases actions_at_none done
    exact ⟨rfl, fun _ _ listed => listed, fun all => all⟩
  | cons action rest ih =>
    obtain ⟨made, more, middle, here, later⟩ := actions_at_cons done
    obtain ⟨first, others⟩ := forall_mem_cons.mp stay
    have step := action_advances turns here first
    have goes := ih others later
    refine ⟨?_, fun place made listed => goes.kept place made (step.kept place made listed), fun all => goes.safe (step.safe all)⟩
    rw [goes.size, step.size, length_cons]
    omega

theorem reads_unique {results : Array NodeId} {other : NodeId} (reads : operand.Reads new results source)
    (again : operand.Reads new results other) (single : ∀ value, operand ≠ .constant value) : other = source := by
  cases operand with
  | node known => exact again.trans reads.symm
  | constant value => exact absurd rfl (single value)
  | made action => exact Option.some.inj (again.symm.trans reads)

theorem reads_kept {first later : Array NodeId} (reads : operand.Reads new first source)
    (kept : ∀ (place : Nat) made, first[place]? = some made → later[place]? = some made) : operand.Reads new later source := by
  cases operand with
  | node other => exact reads
  | constant value => exact reads
  | made action => exact kept action source reads

end

section

variable {count : UInt32}

theorem small_count {size : Nat} (total : 16 + 8 * count.toNat = size) (fits : size < UInt32.size) :
    count.toInt32.toInt = count.toNat := by
  have small : 2 * count.toBitVec.toNat < 2 ^ 32 := by
    have : UInt32.size = 2 ^ 32 := rfl
    have : count.toBitVec.toNat = count.toNat := rfl
    omega
  exact BitVec.toInt_eq_toNat_of_lt small

variable {region : Region} {values : List Operand} {stores : List Store} {map : ObjectRef} {generation : Generation}

theorem fixed_array_spells (made : Region.fixedArray count map generation stores = .ok region)
    (counted : count.toNat = values.length) (regular : ∀ store ∈ stores, store.Regular)
    (places : Store.offsets stores = range' 16 values.length 8) (held : stores.map Store.operand? = values.map some) :
    region.Spells (.heap map :: .number values.length :: values) := by
  obtain ⟨size, fits, same⟩ := bind_eq_ok.mp made
  cases same
  have total := Layout.fixed_array_size_eq_ok.mp fits
  have measured := small_count total.symm size.toNat_lt_size
  refine ⟨?_, ?_, ?_, ?_⟩
  · simp only [length_cons]
    omega
  · rw [Region.allStores, Fill.stores, append_nil]
    refine forall_mem_cons.mpr ⟨rfl, forall_mem_cons.mpr ⟨rfl, fun store member => store.regular_wide (regular store member)⟩⟩
  · show 0 :: 8 :: Store.offsets (stores ++ []) = _
    rw [append_nil, places, Layout.words, Nat.mul_div_cancel_left _ (by decide), length_cons, length_cons,
      range'_succ, range'_succ]
  · show some _ :: some _ :: (stores ++ []).map Store.operand? = _
    rw [append_nil, held, measured, counted]
    rfl

theorem object_spells {elements : Operand} (size : region.size.toNat = 24 + 8 * values.length)
    (all : region.allStores = Region.objectHeader map elements ++ stores) (regular : ∀ store ∈ stores, store.Regular)
    (places : Store.offsets stores = range' 24 values.length 8) (held : stores.map Store.operand? = values.map some) :
    region.Spells (.heap map :: .heap Root.emptyFixedArray :: elements :: values) := by
  refine ⟨?_, ?_, ?_, ?_⟩
  · rw [size]
    simp only [length_cons]
    omega
  · rw [all]
    exact forall_mem_cons.mpr ⟨rfl, forall_mem_cons.mpr ⟨rfl, forall_mem_cons.mpr ⟨rfl, fun store member =>
      store.regular_wide (regular store member)⟩⟩⟩
  · rw [all, Store.offsets_append, places, Layout.words, Nat.mul_div_cancel_left _ (by decide)]
    simp only [length_cons, range'_succ]
    rfl
  · rw [all, map_append, held]
    rfl

theorem zip_idx_operands (store : Operand × Nat → Store) (holds : ∀ entry, (store entry).operand? = some entry.1) (start : Nat) :
    ((values.zipIdx start).map store).map Store.operand? = values.map some := by
  have same : Store.operand? ∘ store = some ∘ Prod.fst := funext holds
  rw [map_map, same, ← map_map, zipIdx_map_fst]

theorem elements_spells (kind : ElementsKind) (small : values.length < UInt32.size)
    (made : Region.elements kind generation values = .ok region) :
    region.Spells (.heap (if kind.isDouble then Root.fixedDoubleArrayMap else Root.fixedArrayMap) :: .number values.length :: values) := by
  obtain ⟨regular, places⟩ := element_stores small (elements_regular kind)
  have held := @zip_idx_operands values (fun entry => .element kind.access (UInt32.ofNat entry.2) entry.1) (fun _ => rfl) 0
  have counted := UInt32.toNat_ofNat_of_lt' small
  rw [Region.elements] at made
  by_cases double : kind.isDouble
  · simp only [if_pos double] at made ⊢
    exact fixed_array_spells made counted regular places held
  · simp only [if_neg double] at made ⊢
    exact fixed_array_spells made counted regular places held

theorem slot_stores_hold {first : Nat} (run : CreationContext.slotStores first values = .ok stores) :
    stores.map Store.operand? = values.map some := by
  have held := map_m_maps Store.operand? (some ∘ Prod.fst) run ?_
  · rw [held, ← map_map, zipIdx_map_fst]
  · intro entry _ store made
    obtain ⟨access, _, same⟩ := bind_eq_ok.mp made
    cases same
    rfl

theorem slots_spells (counted : count.toNat = values.length) (listed : CreationContext.slotStores 0 values = .ok stores)
    (made : Region.fixedArray count map generation stores = .ok region) :
    region.Spells (.heap map :: .number values.length :: values) := by
  obtain ⟨regular, places⟩ := slot_stores_ok (by rw [zero_add, ← counted]; exact le_of_lt count.toNat_lt_size) listed
  exact fixed_array_spells made counted regular places (slot_stores_hold listed)

end

section

variable {s t : Workspace} {id : NodeId}

-- The graph `old` in which all nodes of a plan have been made, and what the creation's change in place leaves of it.
structure Became (s t : Graph) (id : NodeId) (plan : Plan) (old : Graph) (mades : List (List NodeId)) (progress : Plan.Progress)
    (nodes : RegionNodes) (last : NodeId) : Prop where
  turns : old.Turns t id
  actions : ActionsAt True old plan.control { effect := plan.effect } plan.actions mades progress
  laid : plan.last.At True old progress.results plan.control progress.effect nodes last
  closes : t.Performs id .finishRegion ∧ t.Edge id 0 nodes.object ∧ t.effectInput id = .ok last
  kept : ∀ other, s.bypasses id other = false → Safe old id id other
  tidy : plan.last.Tidy False

theorem reduce_becomes (c : CreationContext) (interned : s.graph.Interned) {outcome : Reduction}
    (run : c.reduce id s = .ok outcome t) (rewritten : outcome ≠ .unchanged) :
    ∃ plan, c.decide s.graph id = .ok (.inline plan) ∧ (plan.ending = .become → outcome = .changed id ∧
      ∃ old mades progress nodes last, Became s.graph t.graph id plan old mades progress nodes last) := by
  obtain ⟨plan, request, creation, decided, tidy, created, asked, executed⟩ := reduce_executes run rewritten
  obtain ⟨progress, a, v, mades, nodes, found, whole, done, laid, ends⟩ := execute_lays (fun _ : True => interned) executed
  obtain ⟨next, there, same⟩ := adds_kept whole created
  rw [asked] at same
  have stays := made_stays request next there same plan tidy mades progress nodes a.effect done laid
  cases ends with
  | become graph relaxed finished =>
    have self := creation_unbypassed there same
    have rewired := replace_with_value_rewired self self relaxed
    have closed := finish_as_closes found finished
    obtain ⟨former, kept, _⟩ := rewired.kept id next there (by rw [same]; simp)
    obtain ⟨final, read, ends, inputs⟩ := closed.here former kept
    refine ⟨plan, decided, fun _ => ⟨rfl, v.graph, mades, progress, nodes, a.effect, ⟨?_, request, next, there, same⟩, done, laid, ?_, ?_, tidy.last⟩⟩
    · exact settled_elsewhere (rewired_settled _ rewired) closed.size closed.elsewhere
    · exact finish_region_closes read ends inputs
    · exact fun other unbypassed => ⟨adds_unbypassed whole stays unbypassed, fun _ => rfl⟩
  | replace _ _ _ _ ending =>
    refine ⟨plan, decided, fun become => ?_⟩
    rw [become] at ending
    cases ending

end

theorem reduced_sources (c : CreationContext) (id : NodeId) (s : Workspace) (test : Graph → NodeId → Bool)
    (checks : (match c.reduce id s with
      | .ok outcome t => outcome = .changed id && (range t.graph.size).all fun store => (t.graph.source? store).all (test t.graph)
      | .error .. => false) = true) :
    ∃ t, c.reduce id s = .ok (.changed id) t ∧ ∀ store source, t.graph.source? store = some source → test t.graph source := by
  obtain ⟨outcome, t, run, found⟩ := reduced_check c id s _ checks
  rw [Bool.and_eq_true, decide_eq_true_eq] at found
  refine ⟨t, found.1 ▸ run, fun store source reads => ?_⟩
  cases carried : t.graph.op store with
  | error fault =>
    rw [source?, carried] at reads
    cases reads
  | ok op =>
    obtain ⟨node, read, _⟩ := (t.graph.op_eq_ok store op).mp carried
    have here := all_eq_true.mp found.2 store (mem_range.mpr (t.graph.node_lt read))
    rwa [reads] at here

end SeaOfNodes
