import SeaOfNodes.Assembler.Command
import SeaOfNodes.Proofs.Graph.Wired
import SeaOfNodes.Proofs.Runs

namespace SeaOfNodes

open List

namespace Assembler

variable {old new : Graph}

def Quiet (a : Assembler) : Prop := a.journal.violations = #[]

def Standing (graph : Graph) (position : Position) : Prop :=
  graph.Named position.effect ∧ graph.Carries Operator.continues position.control

def Open (a : Assembler) (control : NodeId) : Prop :=
  (∃ position, a.current = some position ∧ position.control = control) ∨
  ∃ label info arrivals arrival, a.labels.get? label = some info ∧ info.state = .waiting arrivals ∧
    arrival ∈ arrivals ∧ arrival.position.control = control

def ArrivalSound (graph : Graph) (arrival : Arrival) : Prop :=
  Standing graph arrival.position ∧ ∀ entry ∈ arrival.values, graph.Named entry.2

def BindingSound (graph : Graph) (binding : Binding) : Prop :=
  (∀ phi, binding.effectPhi = some phi → graph.Carries Operator.isPhi phi) ∧
  ∀ entry ∈ binding.phis, graph.Carries Operator.isPhi entry.2

-- The controls in `held` are those that a command in the middle of its work has in hand. After a violation
-- nothing is said of controls that lead nowhere.
structure Sound (held : List NodeId) (a : Assembler) : Prop where
  recording : a.journal.mode = .recording
  wired : a.graph.Wired
  current : ∀ position, a.current = some position → Standing a.graph position
  values : ∀ (id : VariableId) info value, a.vars.get? id = some info → info.value = some value → a.graph.Named value
  waiting : ∀ (id : LabelId) info arrivals, a.labels.get? id = some info → info.state = .waiting arrivals →
    ∀ arrival ∈ arrivals, ArrivalSound a.graph arrival
  bound : ∀ (id : LabelId) info binding, a.labels.get? id = some info → info.state = .bound binding →
    BindingSound a.graph binding
  pending : a.Quiet → ∀ id, a.graph.Carries Operator.isControl id → a.graph.Used id ∨ id ∈ held ∨ a.Open id

theorem standing_grown (grown : Graph.Grown old new) {position : Position} (standing : Standing old position) :
    Standing new position :=
  ⟨grown.named standing.1, grown.carries _ continues_by_family _ standing.2⟩

theorem arrival_grown (grown : Graph.Grown old new) {arrival : Arrival} (arrives : ArrivalSound old arrival) :
    ArrivalSound new arrival :=
  ⟨standing_grown grown arrives.1, fun entry member => grown.named (arrives.2 entry member)⟩

theorem binding_grown (grown : Graph.Grown old new) {binding : Binding} (binds : BindingSound old binding) :
    BindingSound new binding :=
  ⟨fun phi same => grown.carries _ is_phi_by_family phi (binds.1 phi same),
    fun entry member => grown.carries _ is_phi_by_family entry.2 (binds.2 entry member)⟩

namespace Sound

variable {held : List NodeId} {a : Assembler} (sound : Sound held a)

include sound

theorem narrow (more : List NodeId) (free : ∀ id ∈ held, id ∈ more ∨ a.graph.Used id) : Sound more a :=
  { sound with
    pending := fun quiet id control => by
      rcases sound.pending quiet id control with used | inHand | open_
      · exact .inl used
      · rcases free id inHand with kept | used
        · exact .inr (.inl kept)
        · exact .inl used
      · exact .inr (.inr open_) }

theorem weaken (more : List NodeId) (wider : ∀ id ∈ held, id ∈ more) : Sound more a :=
  sound.narrow more fun id inHand => .inl (wider id inHand)

-- The graph grows, and each new control is used or in hand.
theorem regraph (work : Workspace) (wired : work.graph.Wired) (grown : Graph.Grown a.graph work.graph)
    (recording : work.journal.mode = .recording) (calm : work.journal.violations = #[] → a.Quiet) (fresh : List NodeId)
    (new : ∀ id, work.graph.Carries Operator.isControl id →
      a.graph.Carries Operator.isControl id ∨ work.graph.Used id ∨ id ∈ fresh) :
    Sound (fresh ++ held) { a with toWorkspace := work } := by
  refine ⟨recording, wired, ?_, ?_, ?_, ?_, ?_⟩
  · intro position open_
    exact standing_grown grown (sound.current position open_)
  · intro id info value read bound
    exact grown.named (sound.values id info value read bound)
  · intro id info arrivals read state arrival member
    exact arrival_grown grown (sound.waiting id info arrivals read state arrival member)
  · intro id info binding read state
    exact binding_grown grown (sound.bound id info binding read state)
  · intro quiet id control
    rcases new id control with old | used | added
    · rcases sound.pending (calm quiet) id old with used | inHand | open_
      · exact .inl (grown.used id used)
      · exact .inr (.inl (mem_append_right fresh inHand))
      · exact .inr (.inr open_)
    · exact .inl used
    · exact .inr (.inl (mem_append_left held added))

theorem congr (b : Assembler) (work : b.toWorkspace = a.toWorkspace) (current : b.current = a.current)
    (vars : b.vars = a.vars) (labels : b.labels = a.labels) : Sound held b := by
  have graph : b.graph = a.graph := congrArg Workspace.graph work
  have journal : b.journal = a.journal := congrArg Workspace.journal work
  have quiet : b.Quiet → a.Quiet := fun calm => by rwa [Quiet, journal] at calm
  have opens : ∀ id, a.Open id → b.Open id := fun id open_ => by rwa [Open, current, labels]
  refine ⟨journal ▸ sound.recording, graph ▸ sound.wired, ?_, ?_, ?_, ?_, ?_⟩
  · rw [graph, current]
    exact sound.current
  · rw [graph, vars]
    exact sound.values
  · rw [graph, labels]
    exact sound.waiting
  · rw [graph, labels]
    exact sound.bound
  · rw [graph]
    intro calm id control
    exact (sound.pending (quiet calm) id control).imp (fun used => used) (Or.imp (fun held => held) (opens id))

theorem release (control : NodeId) (more : List NodeId) (same : held = control :: more)
    (free : a.Quiet → a.graph.Carries Operator.isControl control → a.graph.Used control ∨ control ∈ more ∨ a.Open control) :
    Sound more a :=
  { sound with
    pending := fun quiet id carries => by
      rcases sound.pending quiet id carries with used | inHand | open_
      · exact .inl used
      · rw [same] at inHand
        rcases mem_cons.mp inHand with first | later
        · exact first ▸ free quiet (first ▸ carries)
        · exact .inr (.inl later)
      · exact .inr (.inr open_) }

theorem close {position : Position} (here : a.Quiet → a.current = some position) :
    Sound (position.control :: held) { a with current := none } :=
  { sound with
    current := fun _ impossible => by cases impossible
    pending := fun quiet id carries => by
      rcases sound.pending quiet id carries with used | inHand | ⟨other, open_, same⟩ | waiting
      · exact .inl used
      · exact .inr (.inl (mem_cons_of_mem _ inHand))
      · rw [here quiet] at open_
        cases open_
        exact .inr (.inl (same ▸ mem_cons_self))
      · exact .inr (.inr (.inr waiting)) }

theorem reopen (position : Position) (more : List NodeId) (same : held = position.control :: more)
    (closed : ∀ former, a.current = some former → a.Quiet → a.graph.Used former.control ∨ former.control ∈ more)
    (standing : Standing a.graph position) : Sound more { a with current := some position } :=
  { sound with
    current := fun other open_ => by
      cases open_
      exact standing
    pending := fun quiet id carries => by
      rcases sound.pending quiet id carries with used | inHand | ⟨former, open_, last⟩ | waiting
      · exact .inl used
      · rw [same] at inHand
        rcases mem_cons.mp inHand with first | later
        · exact .inr (.inr (.inl ⟨position, rfl, first.symm⟩))
        · exact .inr (.inl later)
      · exact (closed former open_ quiet).imp (fun used => last ▸ used) fun kept => .inl (last ▸ kept)
      · exact .inr (.inr (.inr waiting)) }

theorem revars {vars : Pool VariableInfo}
    (values : ∀ (id : VariableId) info value, vars.get? id = some info → info.value = some value → a.graph.Named value) :
    Sound held { a with vars := vars } :=
  { sound with values := values }

theorem relabel {labels : Pool LabelInfo} (more : List NodeId)
    (waiting : ∀ (id : LabelId) info arrivals, labels.get? id = some info → info.state = .waiting arrivals →
      ∀ arrival ∈ arrivals, ArrivalSound a.graph arrival)
    (bound : ∀ (id : LabelId) info binding, labels.get? id = some info → info.state = .bound binding →
      BindingSound a.graph binding)
    (kept : ∀ id, id ∈ held ∨ a.Open id → a.graph.Used id ∨ id ∈ more ∨ Open { a with labels := labels } id) :
    Sound more { a with labels := labels } :=
  { sound with
    waiting := waiting
    bound := bound
    pending := fun quiet id carries => (sound.pending quiet id carries).elim .inl (kept id) }

end Sound

end Assembler

namespace Assembly

open Assembler

variable {α β : Type}

def Preserves (inputs : List NodeId) (work : Assembly α) (outputs : α → List NodeId) : Prop :=
  ∀ held a result b, Sound held a → (∀ id ∈ inputs, a.graph.Named id) → work a = .ok result b →
    Sound held b ∧ Graph.Grown a.graph b.graph ∧ ∀ id ∈ outputs result, b.graph.Named id

theorem preserves_pure (inputs : List NodeId) (value : α) (outputs : α → List NodeId)
    (known : ∀ id ∈ outputs value, id ∈ inputs) : Preserves inputs (pure value) outputs := by
  intro held a result b sound named run
  cases run
  exact ⟨sound, a.graph.grown_refl, fun id member => named id (known id member)⟩

theorem preserves_bind (inputs : List NodeId) (first : Assembly α) (next : α → Assembly β) (between : α → List NodeId)
    (outputs : β → List NodeId) (begins : Preserves inputs first between)
    (goes : ∀ value, Preserves (between value ++ inputs) (next value) outputs) :
    Preserves inputs (first >>= next) outputs := by
  intro held a result b sound named run
  obtain ⟨value, middle, here, there⟩ := runs_bind.mp run
  obtain ⟨kept, grown, known⟩ := begins held a value middle sound named here
  have all := forall_mem_append.mpr ⟨known, fun id old => grown.named (named id old)⟩
  obtain ⟨final, further, answers⟩ := goes value held middle result b kept all there
  exact ⟨final, grown.trans further, answers⟩

theorem preserves_forget (inputs : List NodeId) (work : Assembly α) (outputs fewer : α → List NodeId)
    (known : ∀ value, ∀ id ∈ fewer value, id ∈ outputs value) (keeps : Preserves inputs work outputs) :
    Preserves inputs work fewer := by
  intro held a result b sound named run
  obtain ⟨kept, grown, answers⟩ := keeps held a result b sound named run
  exact ⟨kept, grown, fun id member => answers id (known result id member)⟩

theorem preserves_map (inputs : List NodeId) (work : Assembly α) (change : α → β) (outputs : β → List NodeId)
    (keeps : Preserves inputs work fun value => outputs (change value)) : Preserves inputs (change <$> work) outputs := by
  intro held a result b sound named run
  obtain ⟨value, here, rfl⟩ := runs_map.mp run
  exact keeps held a value b sound named here

theorem preserves_get (inputs : List NodeId) (next : Assembler → Assembly β) (outputs : β → List NodeId)
    (goes : ∀ a, Preserves inputs (next a) outputs) : Preserves inputs (get >>= next) outputs := by
  intro held a result b sound named run
  obtain ⟨_, _, read, there⟩ := runs_bind.mp run
  obtain ⟨rfl, rfl⟩ := runs_get.mp read
  exact goes a held a result b sound named there

theorem preserves_of_except (inputs : List NodeId) (outcome : Except Fault α) {outputs : α → List NodeId}
    (known : ∀ value, outcome = .ok value → ∀ id ∈ outputs value, id ∈ inputs) :
    Preserves inputs (ofExcept outcome) outputs := by
  intro held a result b sound named run
  obtain ⟨done, rfl⟩ := runs_of_except.mp run
  exact ⟨sound, a.graph.grown_refl, fun id member => named id (known result done id member)⟩

theorem preserves_more (inputs more : List NodeId) (work : Assembly α) (outputs : α → List NodeId)
    (wider : ∀ id ∈ inputs, id ∈ more) (keeps : Preserves inputs work outputs) : Preserves more work outputs :=
  fun held a result b sound named run => keeps held a result b sound (fun id member => named id (wider id member)) run

theorem preserves_modify {inputs : List NodeId} {change : Assembler → Assembler} {outputs : PUnit → List NodeId}
    (none : outputs () = []) (work : ∀ a, (change a).toWorkspace = a.toWorkspace) (current : ∀ a, (change a).current = a.current)
    (vars : ∀ a, (change a).vars = a.vars) (labels : ∀ a, (change a).labels = a.labels) :
    Preserves inputs (modify change) outputs := by
  intro held a result b sound named run
  cases run
  refine ⟨sound.congr _ (work a) (current a) (vars a) (labels a), ?_, ?_⟩
  · rw [show (change a).graph = a.graph from congrArg Workspace.graph (work a)]
    exact a.graph.grown_refl
  · intro id member
    rw [none] at member
    cases member

theorem preserves_for_m (inputs : List NodeId) (items : List β) (visit : β → Assembly PUnit)
    (each : ∀ item ∈ items, Preserves inputs (visit item) fun _ => []) :
    Preserves inputs (items.forM visit) fun _ => [] := by
  induction items with
  | nil => exact preserves_pure inputs () _ (by simp)
  | cons item rest ih =>
    refine preserves_bind inputs (visit item) (fun _ => rest.forM visit) (fun _ => []) _ (each item mem_cons_self) ?_
    exact fun _ => ih fun other member => each other (mem_cons_of_mem item member)

end Assembly

end SeaOfNodes
