import SeaOfNodes.Proofs.Creation.Initialized

/-! What the nodes of an effect path do to memory. -/

namespace SeaOfNodes

open List

variable {before after : Contents} {actions : List Action} {operand : Operand} {word : Word} {place : Nat} {stores : List Store}
  {limit : UInt32}

inductive Word where
  | constant (value : Constant)
  | address (object : Nat)
deriving DecidableEq, Repr

structure Memory where
  objects : List (List (Option Word)) := []
  names : List (NodeId × Nat) := []
deriving DecidableEq, Repr

def Memory.write? (memory : Memory) (object offset : Nat) (word : Word) : Option Memory := do
  let words ← memory.objects[object]?
  guard (8 ∣ offset ∧ offset / 8 < words.length)
  return { memory with objects := memory.objects.set object (words.set (offset / 8) (some word)) }

namespace Graph

def word? (graph : Graph) (memory : Memory) (id : NodeId) : Option Word :=
  match graph.op id with
  | .ok (.constant value) => some (.constant value)
  | _ => (memory.names.lookup id).map .address

def source? (graph : Graph) (id : NodeId) : Option NodeId :=
  match graph.op id with
  | .ok (.storeField _) => (graph.input id 1).toOption
  | .ok (.storeElement _) => (graph.input id 2).toOption
  | _ => none

-- What one node of an effect path does.
def step? (graph : Graph) (memory : Memory) (id : NodeId) : Option Memory :=
  match graph.op id with
  | .ok .beginRegion => some memory
  | .ok (.allocate _) => do
    let size ← graph.allocated? id
    guard (8 ∣ size.toNat)
    return { objects := memory.objects ++ [List.replicate (size.toNat / 8) none]
             names := (id, memory.objects.length) :: memory.names }
  | .ok .finishRegion => do
    let address ← memory.names.lookup (← (graph.input id 0).toOption)
    return { memory with names := (id, address) :: memory.names }
  | .ok _ => do
    let address ← memory.names.lookup (← (graph.input id 0).toOption)
    let (offset, bytes) ← graph.written? id
    guard (bytes = 8)
    memory.write? address offset (← graph.word? memory (← graph.source? id))
  | .error _ => none

end Graph

structure Contents where
  objects : List (List (Option Word)) := []
  values : List Word := []

def Operand.word? (values : List Word) : Operand → Option Word
  | .node _ => none
  | .constant value => some (.constant value)
  | .made action => values[action]?

def Store.operand? : Store → Option Operand
  | .field _ value => some value
  | .element _ _ value => some value
  | .misplaced _ => none

def Store.Lay (values : List Word) : Nat → List Store → List Word → Prop
  | _, [], [] => True
  | place, store :: stores, word :: words =>
    (store.Wide ∧ store.offset? = some (8 * place) ∧ store.operand?.bind (Operand.word? values) = some word) ∧
      Lay values (place + 1) stores words
  | _, _, _ => False

def Region.Lays (values : List Word) (region : Region) (words : List Word) : Prop :=
  region.size.toNat = 8 * words.length ∧ Store.Lay values 0 region.allStores words

def Action.Makes (limit : UInt32) (before after : Contents) : Action → Prop
  | .constant value => after = { before with values := before.values ++ [.constant value] }
  | .node .. => False
  | .region built => built.size ≤ limit ∧ ∃ words, built.Lays before.values words ∧
      after = { objects := before.objects ++ [words.map some], values := before.values ++ [.address before.objects.length] }

def Makes (limit : UInt32) : Contents → List Action → Contents → Prop
  | before, [], after => before = after
  | before, action :: rest, after => ∃ middle, action.Makes limit before middle ∧ Makes limit middle rest after

theorem makes_append {middle : Contents} {first second : List Action} (begins : Makes limit before first middle)
    (goes : Makes limit middle second after) : Makes limit before (first ++ second) after := by
  induction first generalizing before with
  | nil => exact begins ▸ goes
  | cons action rest ih =>
    obtain ⟨between, here, there⟩ := begins
    exact ⟨between, here, ih there⟩

theorem action_makes_values {action : Action} (makes : action.Makes limit before after) :
    ∃ word, after.values = before.values ++ [word] := by
  cases action with
  | constant value =>
    cases makes
    exact ⟨_, rfl⟩
  | node op values type => exact makes.elim
  | region region =>
    obtain ⟨_, words, _, rfl⟩ := makes
    exact ⟨_, rfl⟩

theorem makes_length (makes : Makes limit before actions after) :
    after.values.length = before.values.length + actions.length := by
  induction actions generalizing before with
  | nil => exact congrArg (fun contents => contents.values.length) makes.symm
  | cons action rest ih =>
    obtain ⟨middle, here, there⟩ := makes
    obtain ⟨word, same⟩ := action_makes_values here
    rw [ih there, same, length_append, length_singleton, length_cons]
    omega

variable {values words : List Word}

section

variable {id control object last effect : NodeId} {op : Operator} {inputs ids : List NodeId} {generation : Generation}
  {count address : Nat} {results : Array NodeId} {olds : List (List (Option Word))} {graph : Graph} {memory : Memory}

theorem has_edge (has : graph.Has id op inputs) (index : Nat) (input : NodeId) (edge : inputs[index]? = some input) :
    graph.input id index = .ok input := by
  obtain ⟨node, live, _, rfl, _⟩ := has
  exact (graph.edge_iff id).mpr ⟨node, live.1, edge⟩

theorem has_effect (has : graph.Has id op inputs) (fits : op.fits) (some : 0 < op.layout.effects) (input : NodeId)
    (edge : inputs[op.layout.firstEffect]? = .some input) : graph.effectInput id = .ok input := by
  obtain ⟨node, live, rfl, rfl, _⟩ := has
  exact graph.effect_input_eq id input live.1 fits some edge

theorem step_begin (has : graph.Has id .beginRegion inputs) : graph.step? memory id = some memory := by
  have performs : graph.op id = .ok _ := graph.has_performs id has
  rw [Graph.step?, performs]

theorem step_allocate {bytes begins : NodeId} {size : UInt32} (has : graph.Has id (.allocate generation) [bytes, begins, control])
    (sized : graph.Denotes bytes (.int32 size.toInt32)) (whole : size.toNat = 8 * count) :
    graph.step? memory id = some { objects := memory.objects ++ [replicate count none]
                                   names := (id, memory.objects.length) :: memory.names } := by
  have performs : graph.op id = .ok _ := graph.has_performs id has
  have constant : graph.op bytes = .ok _ := graph.denotes_performs bytes sized
  have edge := has_edge has 0 bytes rfl
  have known : graph.allocated? id = some size := by
    simp only [Graph.allocated?, performs, edge, constant, UInt32.toUInt32_toInt32]
  simp [Graph.step?, performs, known, whole]

theorem step_finish (has : graph.Has id .finishRegion [object, last]) (named : memory.names.lookup object = some address) :
    graph.step? memory id = some { memory with names := (id, address) :: memory.names } := by
  have performs : graph.op id = .ok _ := graph.has_performs id has
  have edge := has_edge has 0 object rfl
  simp [Graph.step?, performs, edge, Except.toOption, named]

def Named (graph : Graph) (memory : Memory) (results : Array NodeId) (values : List Word) : Prop :=
  ∀ (index : Nat) id word, results[index]? = some id → values[index]? = some word → graph.word? memory id = some word

theorem operand_word (named : Named graph memory results values)
    (stands : operand.At True graph results id) (known : operand.word? values = some word) :
    graph.word? memory id = some word := by
  cases operand with
  | node other => cases known
  | constant value =>
    have performs : graph.op id = .ok _ := graph.denotes_performs id (stands.2 trivial)
    rw [Graph.word?, performs]
    exact known
  | made action => exact named action id word stands known

theorem step_store (named : Named graph memory results values) {store : Store}
    (done : store.At True graph results control generation object effect id) (wide : store.Wide)
    (placed : store.offset? = some (8 * place)) (known : store.operand?.bind (Operand.word? values) = some word)
    (owner : memory.names.lookup object = some address) : graph.step? memory id = memory.write? address (8 * place) word := by
  cases store with
  | field access value =>
    obtain ⟨source, stands, has⟩ := done
    have performs : graph.op id = .ok _ := graph.has_performs id has
    have into := has_edge has 0 object rfl
    have edge := has_edge has 1 source rfl
    have held := operand_word named stands known
    have bytes : access.machineType.representation.bytes = 8 := wide
    have offset : access.offset.toNat = 8 * place := Option.some.inj placed
    simp [Graph.step?, performs, into, Graph.written?, Graph.source?, edge, Except.toOption, owner, held, bytes, offset]
  | element access index value =>
    obtain ⟨position, source, counts, stands, has⟩ := done
    have performs : graph.op id = .ok _ := graph.has_performs id has
    have counted : graph.op position = .ok _ := graph.denotes_performs position (counts.2 trivial)
    have into := has_edge has 0 object rfl
    have second := has_edge has 1 position rfl
    have third := has_edge has 2 source rfl
    have held := operand_word named stands known
    have bytes : access.machineType.representation.bytes = 8 := wide
    have offset : access.header.toNat + 8 * index.toNat = 8 * place := Option.some.inj placed
    simp [Graph.step?, performs, into, Graph.written?, Graph.source?, second, third, counted, Double.clamped_of_uint32,
      Except.toOption, owner, held, bytes, offset]
  | misplaced fault => exact done.elim

theorem write_next {written : List Word} (word : Word)
    (shape : memory.objects = olds ++ [written.map some ++ replicate (count + 1) none]) :
    memory.write? olds.length (8 * written.length) word =
      some { memory with objects := olds ++ [(written ++ [word]).map some ++ replicate count none] } := by
  simp [Memory.write?, shape, replicate_succ]

-- The object under construction is the last one; its words before `place` are written, those from there on are not.
theorem stores_run (words written : List Word) (named : Named graph memory results values)
    (owner : memory.names.lookup object = some olds.length)
    (done : StoresAt True graph results control generation object effect stores ids last)
    (lay : Store.Lay values written.length stores words)
    (shape : memory.objects = olds ++ [written.map some ++ replicate words.length none]) :
    ids.foldlM graph.step? memory = some { memory with objects := olds ++ [(written ++ words).map some] } := by
  induction stores generalizing memory ids words written effect with
  | nil =>
    cases ids with
    | cons id rest => exact done.elim
    | nil =>
      cases words with
      | cons word rest => exact lay.elim
      | nil =>
        rw [length_nil, replicate_zero, append_nil] at shape
        rw [append_nil, ← shape]
        rfl
  | cons store stores ih =>
    cases ids with
    | nil => exact done.elim
    | cons id ids =>
      cases words with
      | nil => exact lay.elim
      | cons word words =>
        obtain ⟨⟨wide, placed, known⟩, lay⟩ := lay
        have step := step_store named done.1 wide placed known owner
        rw [write_next word shape] at step
        rw [foldlM_cons, step]
        -- The names stay, and with them what the nodes of earlier actions stand for.
        have still : Named graph { memory with
          objects := olds ++ [(written ++ [word]).map some ++ replicate words.length none] } results values := named
        refine (ih words (written ++ [word]) still owner done.2 ?_ rfl).trans ?_
        · rw [length_append]
          exact lay
        · rw [append_assoc]
          rfl

theorem word_push {id : NodeId} {other : NodeId} (address : Nat) (fresh : ∀ entry ∈ memory.names, entry.1 < id)
    (held : graph.word? memory other = some word) :
    graph.word? { memory with names := (id, address) :: memory.names } other = some word := by
  rw [Graph.word?] at held ⊢
  split at held
  · exact held
  · obtain ⟨found, listed, rfl⟩ := Option.map_eq_some_iff.mp held
    have apart : other ≠ id := ne_of_lt (fresh _ (mem_of_lookup other found listed))
    have different : (other == id) = false := by simpa using apart
    simp [lookup_cons, different, listed]

theorem region_runs {region : Region} {nodes : RegionNodes} {ends : NodeId} (named : Named graph memory results values)
    (done : region.At True graph results control effect nodes last) (finished : graph.Has ends .finishRegion [nodes.object, last])
    (lays : region.Lays values words) (fresh : ∀ entry ∈ memory.names, entry.1 < nodes.object) :
    (nodes.chain ++ [ends]).foldlM graph.step? memory =
      some { objects := memory.objects ++ [words.map some]
             names := (ends, memory.objects.length) :: (nodes.object, memory.objects.length) :: memory.names } := by
  have begins : graph.step? memory nodes.begins = some memory := step_begin done.begins
  have allocates : graph.step? memory nodes.object = _ :=
    step_allocate done.object (done.bytes.2 trivial) lays.1
  have still : Named graph { objects := memory.objects ++ [replicate words.length none]
                             names := (nodes.object, memory.objects.length) :: memory.names } results values :=
    fun index id word result value => word_push _ fresh (named index id word result value)
  have fills := stores_run words [] still lookup_cons_self done.stores lays.2 rfl
  have closes : graph.step? { objects := memory.objects ++ [words.map some]
                              names := (nodes.object, memory.objects.length) :: memory.names } ends = _ :=
    step_finish finished lookup_cons_self
  rw [nil_append] at fills
  simp only [RegionNodes.chain, cons_append, foldlM_cons, foldlM_append, foldlM_nil, begins, allocates, fills,
    closes, Option.bind_eq_bind, Option.bind_some]
  rfl

theorem named_push (id : NodeId) (named : Named graph memory results values)
    (counted : results.size = values.length) (held : graph.word? memory id = some word) :
    Named graph memory (results.push id) (values ++ [word]) := by
  intro index other known result value
  by_cases last : index = results.size
  · subst last
    rw [Array.getElem?_push_size] at result
    rw [counted, getElem?_concat_length] at value
    rwa [← Option.some.inj result, ← Option.some.inj value]
  · have inside : index < results.size := by
      have := (Array.getElem?_eq_some_iff.mp result).1
      rw [Array.size_push] at this
      omega
    rw [Array.getElem?_push, if_neg last] at result
    rw [getElem?_append_left (counted ▸ inside)] at value
    exact named index other known result value

-- The nodes of a plan allocate and fill the objects that the plan says, one region after the other.
theorem actions_run (limit : UInt32) (control : NodeId) (actions : List Action) (mades : List (List NodeId))
    (before after : Plan.Progress) (first last : Contents) (done : ActionsAt True graph control before actions mades after)
    (makes : Makes limit first actions last) (named : Named graph memory before.results first.values)
    (counted : before.results.size = first.values.length) (same : memory.objects = first.objects)
    (sorted : mades.flatten.Pairwise (· < ·)) (fresh : ∀ entry ∈ memory.names, ∀ id ∈ mades.flatten, entry.1 < id) :
    ∃ final, mades.flatten.foldlM graph.step? memory = some final ∧ final.objects = last.objects ∧
      Named graph final after.results last.values ∧ after.results.size = last.values.length := by
  induction actions generalizing memory mades before first with
  | nil =>
    cases mades with
    | cons made more => exact done.elim
    | nil =>
      cases done
      cases makes
      exact ⟨memory, rfl, same, named, counted⟩
  | cons action rest ih =>
    cases mades with
    | nil => exact done.elim
    | cons made more =>
      obtain ⟨middle, here, there⟩ := done
      obtain ⟨between, step, makes⟩ := makes
      rw [flatten_cons] at sorted fresh ⊢
      cases action with
      | constant value =>
        obtain ⟨id, rfl, rfl, means⟩ := here
        cases step
        have performs : graph.op id = .ok _ := graph.denotes_performs id (means.2 trivial)
        have held : graph.word? memory id = some (.constant value) := by rw [Graph.word?, performs]
        exact ih more _ _ there makes (named_push id named counted held)
          (by rw [Array.size_push, counted, length_append]; rfl) same sorted fresh
      | node op values type => exact step.elim
      | region region =>
        obtain ⟨nodes, effect, ends, rfl, rfl, laid, finished⟩ := here
        obtain ⟨_, words, lays, rfl⟩ := step
        obtain ⟨ordered, later, apart⟩ := pairwise_append.mp sorted
        have listed : nodes.object ∈ nodes.chain := mem_cons_of_mem _ mem_cons_self
        have runs := region_runs named laid
          finished lays fun entry member => fresh entry member nodes.object (by simp [listed])
        have before' : nodes.object < ends := (pairwise_append.mp ordered).2.2 _ listed ends mem_cons_self
        have inner : ∀ entry ∈ (nodes.object, memory.objects.length) :: memory.names, entry.1 < ends :=
          forall_mem_cons.mpr ⟨before', fun entry member => fresh entry member ends (by simp)⟩
        have named := fun index id word result value => word_push memory.objects.length inner
          (word_push memory.objects.length (fun entry member => fresh entry member nodes.object (by simp [listed])) (named index id word result value))
        have performs : graph.op ends = .ok _ := graph.has_performs ends finished
        rw [foldlM_append, runs]
        refine ih more _ _ there makes (named_push ends named counted ?_) ?_ ?_ later ?_
        · rw [Graph.word?, performs]
          simp [same]
        · rw [Array.size_push, counted, length_append]
          rfl
        · rw [same]
        · refine forall_mem_cons.mpr ⟨fun id member => apart ends (by simp) id member, ?_⟩
          refine forall_mem_cons.mpr ⟨fun id member => apart nodes.object (by simp [listed]) id member, ?_⟩
          exact fun entry member id later => fresh entry member id (mem_append_right _ later)

theorem stores_follow (done : StoresAt True graph results control generation object effect stores ids last) :
    graph.Follows effect ids last := by
  induction stores generalizing ids effect with
  | nil =>
    cases ids with
    | nil => exact done
    | cons id rest => exact done.elim
  | cons store rest ih =>
    cases ids with
    | nil => exact done.elim
    | cons id ids =>
      refine ⟨?_, ih done.2⟩
      cases store with
      | field access value =>
        obtain ⟨source, _, has⟩ := done.1
        exact has_effect has rfl one_pos effect rfl
      | element access index value =>
        obtain ⟨place, source, _, _, has⟩ := done.1
        exact has_effect has rfl one_pos effect rfl
      | misplaced fault => exact done.1.elim

theorem actions_follow {mades : List (List NodeId)} {before after : Plan.Progress} {first last : Contents}
    (done : ActionsAt True graph control before actions mades after) (makes : Makes limit first actions last) :
    graph.Follows before.effect mades.flatten after.effect := by
  induction actions generalizing mades before first with
  | nil =>
    cases mades with
    | cons made more => exact done.elim
    | nil => exact congrArg Plan.Progress.effect done
  | cons action rest ih =>
    cases mades with
    | nil => exact done.elim
    | cons made more =>
      obtain ⟨middle, here, there⟩ := done
      obtain ⟨between, step, makes⟩ := makes
      have later := ih there makes
      rw [flatten_cons]
      cases action with
      | constant value =>
        obtain ⟨id, rfl, rfl, _⟩ := here
        exact later
      | node op values type => exact step.elim
      | region region =>
        obtain ⟨nodes, effect, ends, rfl, rfl, laid, finished⟩ := here
        have filled := stores_follow laid.stores
        refine graph.follows_append _ _ before.effect ends after.effect ?_ later
        refine graph.follows_append nodes.chain [ends] before.effect effect ends ⟨?_, ?_, filled⟩ ⟨?_, rfl⟩
        · exact has_effect laid.begins rfl one_pos before.effect rfl
        · exact has_effect laid.object rfl one_pos nodes.begins rfl
        · exact has_effect finished rfl one_pos effect rfl

end

section

theorem word_feasible (known : operand.word? values = some word) : operand.Feasible True values.length := by
  cases operand with
  | node id => cases known
  | constant value => trivial
  | made action => exact fun _ => (List.getElem?_eq_some_iff.mp known).1

theorem lay_feasible (lay : Store.Lay values place stores words) : ∀ store ∈ stores, store.Feasible True values.length := by
  induction stores generalizing place words with
  | nil => simp
  | cons store rest ih =>
    cases words with
    | nil => exact lay.elim
    | cons word words =>
      obtain ⟨⟨_, _, known⟩, lay⟩ := lay
      refine forall_mem_cons.mpr ⟨?_, ih lay⟩
      cases store with
      | field access value | element access index value => exact word_feasible known
      | misplaced fault => cases known

theorem makes_feasible (makes : Makes limit before actions after) (place : Nat)
    (action : Action) (listed : actions[place]? = some action) : action.Feasible True (before.values.length + place) := by
  induction actions generalizing before place with
  | nil => cases listed
  | cons first rest ih =>
    obtain ⟨middle, here, there⟩ := makes
    obtain ⟨word, grown⟩ := action_makes_values here
    cases place with
    | zero =>
      cases listed
      cases action with
      | constant value => trivial
      | node op values type => exact here.elim
      | region region =>
        obtain ⟨_, words, lays, _⟩ := here
        exact lay_feasible lays.2
    | succ place =>
      have later := ih there place listed
      rw [grown, length_append, length_singleton] at later
      exact (Nat.add_right_comm _ 1 place) ▸ later

theorem makes_small (makes : Makes limit before actions after) (region : Region)
    (member : Action.region region ∈ actions) : region.size ≤ limit := by
  induction actions generalizing before with
  | nil => cases member
  | cons action rest ih =>
    obtain ⟨middle, here, there⟩ := makes
    rcases mem_cons.mp member with rfl | later
    · exact here.1
    · exact ih there later

end

end SeaOfNodes
