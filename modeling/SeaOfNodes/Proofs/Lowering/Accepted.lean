import SeaOfNodes.Proofs.Lowering.Driver

/-! A verified graph without control cycles outside its loops is lowered to a verified graph without creations. -/

namespace SeaOfNodes

def Operator.isLoop : Operator → Bool
  | control (.loop _) => true
  | _ => false

namespace Graph

def ControlStep (graph : Graph) (earlier later : NodeId) : Prop :=
  ∃ node, graph.Live later node ∧ node.op.isLoop = false ∧ earlier ∈ controlInputs node

section

open Classical in
noncomputable def controlRank (graph : Graph) (id : NodeId) : Nat :=
  ((Finset.range graph.size).filter fun earlier => Relation.TransGen graph.ControlStep earlier id).card

variable {graph : Graph} (verified : graph.Verified) (acyclic : ∀ id, ¬ Relation.TransGen graph.ControlStep id id)

include verified acyclic

theorem control_step_rank (earlier later : NodeId) (step : graph.ControlStep earlier later) :
    graph.controlRank earlier < graph.controlRank later := by
  classical
  refine Finset.card_lt_card (Finset.ssubset_iff_of_subset ?_ |>.mpr ⟨earlier, ?_, ?_⟩)
  · intro first member
    rw [Finset.mem_filter] at member ⊢
    exact ⟨member.1, member.2.tail step⟩
  · have ⟨node, live, _, member⟩ := step
    obtain ⟨definition, alive⟩ := verified.inputs later node live earlier (List.mem_of_mem_drop member)
    rw [Finset.mem_filter, Finset.mem_range]
    exact ⟨node_lt graph alive.1, .single step⟩
  · intro member
    exact acyclic earlier (Finset.mem_filter.mp member).2

theorem verified_lowerable (mirrored : graph.Mirrored) (entry : ∃ node, graph.Live start node ∧ node.op = .control .start)
    (exit : ∀ node, graph.Live stop node → node.op.isTracked = false)
    (width : ∀ id node, graph.Live id node → node.op.isCreation → node.inputs.length ≠ UInt32.size) :
    Lowerable graph.controlRank graph := by
  refine ⟨mirrored, entry, fun id node live => ?_⟩
  obtain ⟨first, alive, begins⟩ := entry
  have single := (count_live_eq_one graph (fun op => op = .control .start) alive (decide_eq_true begins)).mp verified.single
  refine ⟨verified.fits id node live, verified.counted id node live, verified.inputs id node live, verified.controls id node live,
    fun here => single id node live (decide_eq_true here), ?_, ?_, width id node live⟩
  · rintro rfl
    exact exit node live
  intro tracked input member
  refine control_step_rank verified acyclic input id ⟨node, live, ?_, member⟩
  simp only [Operator.isTracked, Bool.or_eq_true, decide_eq_true_eq] at tracked
  rcases tracked with creates | projects
  · cases op : node.op with
    | create request => rfl
    | _ => simp [op, Operator.isCreation] at creates
  · rw [projects]
    rfl

end

-- Only an array has room for as many values.
theorem creation_width (request : Creation) (wide : (Operator.create request).layout.total = UInt32.size) :
    ∃ site, request = .array 4294967290 site := by
  have fixed : ∀ values frameState, values ≤ 2 → (InputLayout.creation values frameState).total ≠ UInt32.size := by
    intro values frameState few total
    cases frameState <;> simp only [InputLayout.total, InputLayout.firstControl, InputLayout.firstEffect,
      InputLayout.frameStateIndex, InputLayout.creation, Bool.toNat_true, Bool.toNat_false, UInt32.size] at total <;> omega
  cases request with
  | array arity site =>
    refine ⟨site, ?_⟩
    have count : 2 + arity.toNat + 1 + 1 + 1 + 1 = UInt32.size := wide
    have exact : arity.toNat = (4294967290 : UInt32).toNat := by
      rw [show (4294967290 : UInt32).toNat = 4294967290 from rfl]
      simp only [UInt32.size] at count
      omega
    rw [UInt32.toNat.inj exact]
  | _ => exact absurd wide (fixed _ _ (by decide))

theorem lowerable_verified {rank : NodeId → Nat} {graph : Graph} (sound : Lowerable rank graph) : graph.Verified := by
  obtain ⟨first, alive, begins⟩ := sound.entry
  refine ⟨?_, fun id node live => (sound.nodes id node live).fits, fun id node live => (sound.nodes id node live).counted,
    fun id node live => (sound.nodes id node live).inputs, fun id node live => (sound.nodes id node live).leads⟩
  refine (count_live_eq_one graph (fun op => op = .control .start) alive (decide_eq_true begins)).mpr ?_
  intro other next live passes
  exact (sound.nodes other next live).entry (of_decide_eq_true passes)

theorem no_creation_waits (graph : Graph) (done : graph.waiting = ∅) (id : NodeId) (node : Node) (live : graph.Live id node) :
    node.op.isCreation = false := by
  rw [Bool.eq_false_iff]
  intro creates
  have waits : id ∈ graph.waiting := (graph.mem_waiting id).mpr ((graph.pending_iff id).mpr ⟨node, live, creates⟩)
  rw [done] at waits
  exact Finset.notMem_empty id waits

end Graph

-- Lowering ends for any heap, registry and configuration, and keeps what the verifier asks for.
theorem lowered_graph_verified (c : CreationContext) (s : Workspace) (mirrored : s.graph.Mirrored)
    (verified : s.graph.verify = .ok ()) (entry : ∃ node, s.graph.Live Graph.start node ∧ node.op = .control .start)
    (exit : ∀ node, s.graph.Live Graph.stop node → node.op.isCreation = false ∧ node.op ≠ .control .ifSuccess)
    (arity : ∀ id node site, s.graph.Live id node → node.op ≠ .create (.array 4294967290 site))
    (acyclic : ∀ id, ¬ Relation.TransGen s.graph.ControlStep id id) (tolerant : s.journal.mode ≠ .validating) :
    match lowerCreations c s with
    | .ok stats t =>
      t.graph.verify = .ok () ∧ (∀ id node, t.graph.Live id node → node.op.isCreation = false) ∧
        stats.reductions = s.graph.liveEntries.countP fun entry => entry.2.op.isCreation
    | .error fault _ => fault = .overflow ∨ fault = .assertion := by
  have sane := (Graph.verify_eq_ok s.graph).mp verified
  have untracked : ∀ node, s.graph.Live Graph.stop node → node.op.isTracked = false := by
    intro node live
    obtain ⟨creates, projects⟩ := exit node live
    simp [Operator.isTracked, creates, projects]
  have width : ∀ id node, s.graph.Live id node → node.op.isCreation = true → node.inputs.length ≠ UInt32.size := by
    intro id node live creates wide
    rw [sane.counted id node live] at wide
    cases op : node.op with
    | create request =>
      obtain ⟨site, rfl⟩ := Graph.creation_width request (op ▸ wide)
      exact arity id node site live op
    | _ => simp [op, Operator.isCreation] at creates
  have outcome := lower_creations_yields c s (Graph.verified_lowerable sane acyclic mirrored entry untracked width) tolerant
  cases run : lowerCreations c s with
  | error fault t =>
    rw [Build.Yields, run] at outcome
    exact outcome
  | ok stats t =>
    rw [Build.Yields, run] at outcome
    obtain ⟨kept, done, counted⟩ := outcome
    refine ⟨(Graph.verify_eq_ok _).mpr (Graph.lowerable_verified kept), Graph.no_creation_waits _ done, ?_⟩
    rw [Graph.count_creations]
    exact counted

section

def CreationContext.initial : CreationContext := { heap := .initial, config := {} }

def Workspace.recording (graph : Graph) : Workspace := { graph, journal := { mode := .recording } }

theorem lowered_check (c : CreationContext) (s : Workspace) (test : Workspace → Bool)
    (checks : (match lowerCreations c s with | .ok _ t => test t | .error .. => false) = true) :
    ∃ stats t, lowerCreations c s = .ok stats t ∧ test t := by
  cases run : lowerCreations c s with
  | ok stats t =>
    rw [run] at checks
    exact ⟨stats, t, rfl, checks⟩
  | error fault t =>
    rw [run] at checks
    cases checks

def Graph.inOrder (graph : Graph) : Bool :=
  let place (id : NodeId) : Nat := if id = stop then graph.size else id
  graph.verify.toOption.isSome && ((graph.node? start).any fun node => !node.dead && node.op = .control .start) &&
    graph.liveEntries.all fun entry => entry.2.op.isLoop || (controlInputs entry.2).all fun input => place input < place entry.1

theorem in_order_hypotheses (graph : Graph) (ordered : graph.inOrder) :
    graph.verify = .ok () ∧ (∃ node, graph.Live Graph.start node ∧ node.op = .control .start) ∧
      ∀ id, ¬ Relation.TransGen graph.ControlStep id id := by
  simp only [Graph.inOrder, Bool.and_eq_true] at ordered
  obtain ⟨⟨accepted, begun⟩, placed⟩ := ordered
  refine ⟨?_, ?_, fun id cycle => ?_⟩
  · cases answer : graph.verify with
    | ok _ => rfl
    | error failure =>
      rw [answer] at accepted
      cases accepted
  · rw [Option.any_eq_true] at begun
    obtain ⟨node, read, holds⟩ := begun
    simp only [Bool.and_eq_true, Bool.not_eq_true', decide_eq_true_eq] at holds
    exact ⟨node, ⟨read, holds.1⟩, holds.2⟩
  · have climbs : ∀ later, Relation.TransGen graph.ControlStep id later →
        (if id = Graph.stop then graph.size else id) < if later = Graph.stop then graph.size else later := by
      have step : ∀ earlier later, graph.ControlStep earlier later →
          (if earlier = Graph.stop then graph.size else earlier) < if later = Graph.stop then graph.size else later := by
        rintro earlier later ⟨node, live, straight, member⟩
        have entry := List.all_eq_true.mp placed (later, node) (graph.mem_live_entries.mpr live)
        rw [straight, Bool.false_or] at entry
        exact of_decide_eq_true (List.all_eq_true.mp entry earlier member)
      intro later path
      induction path with
      | single first => exact step _ _ first
      | tail _ last ih => exact ih.trans (step _ _ last)
    exact lt_irrefl _ (climbs id cycle)

def loopedCreations : List Edit :=
  [.constant (.constant (.heap Root.undefined)), .addNode (.control (.loop 1)) [0] none,
   .addNode (.create .object) [2, 2, 2, 2, 0, 3] none, .addNode (.control .ifSuccess) [4] none,
   .addNode (.control .ifException) [4, 4] none, .addNode (.create .iterResult) [4, 2, 2, 4, 5] none,
   .addNode (.control .branch) [2, 7] none, .addNode (.control .ifTrue) [8] none, .addNode (.control .ifFalse) [8] none,
   .addNode (.control (.ret 1)) [2, 7, 7, 10] none, .addNode (.control .throw) [6, 6] none,
   .mergeToEnd 11, .mergeToEnd 12, .appendInput 3 9, .changeOp 3 (.control (.loop 2))]

theorem looped_creations_verified :
    ∃ stats t, lowerCreations .initial (.recording (.built loopedCreations)) = .ok stats t ∧ t.graph.verify = .ok () ∧
      (∀ id node, t.graph.Live id node → node.op.isCreation = false) ∧ stats.reductions = 2 := by
  have ordered : (Graph.built loopedCreations).inOrder = true := by decide +kernel
  have narrow : ((Graph.built loopedCreations).liveEntries.all fun entry =>
      entry.2.op.layout.values < 4 && (entry.1 != Graph.stop || !entry.2.op.isTracked)) = true := by decide +kernel
  have created : ((Graph.built loopedCreations).liveEntries.countP fun entry => entry.2.op.isCreation) = 2 := by decide +kernel
  have mirrored := built_mirrored loopedCreations
  obtain ⟨stats, t, run, _⟩ := lowered_check .initial (.recording (.built loopedCreations)) (fun _ => true) (by decide +kernel)
  -- The rest is about any graph with these properties, and does not compute the graph again.
  generalize Graph.built loopedCreations = graph at *
  obtain ⟨verified, entry, acyclic⟩ := in_order_hypotheses graph ordered
  simp only [List.all_eq_true, Bool.and_eq_true, decide_eq_true_eq] at narrow
  have lowered := lowered_graph_verified .initial (.recording graph) mirrored verified entry (fun node live => by
      obtain ⟨_, last⟩ := narrow _ (graph.mem_live_entries.mpr live)
      simpa [Operator.isTracked] using last)
    (fun id node site live op => by
      obtain ⟨few, _⟩ := narrow _ (graph.mem_live_entries.mpr live)
      rw [op] at few
      exact absurd few (by simp [Operator.layout, Creation.layout, InputLayout.creation]))
    acyclic nofun
  rw [run] at lowered
  exact ⟨stats, t, run, lowered.1, lowered.2.1, lowered.2.2.trans created⟩

def creatingEnd : List Edit :=
  [.constant (.constant (.heap Root.undefined)), .addNode (.control (.merge 1)) [0] none, .changeOp 1 (.create .iterResult),
   .appendInput 1 2, .appendInput 1 2, .appendInput 1 2, .appendInput 1 0, .appendInput 1 3]

theorem creating_end_unverified : ((Graph.built creatingEnd).verify = .ok () ∧
      (∃ node, (Graph.built creatingEnd).Live Graph.start node ∧ node.op = .control .start) ∧
      ∀ id, ¬ Relation.TransGen (Graph.built creatingEnd).ControlStep id id) ∧
    ∃ stats t, lowerCreations .initial (.recording (.built creatingEnd)) = .ok stats t ∧
      t.graph.verify = .error (.rejected (.unterminatedControl 3 (.control (.merge 1)))) := by
  refine ⟨in_order_hypotheses _ (by decide +kernel), ?_⟩
  obtain ⟨stats, t, run, refused⟩ := lowered_check .initial (.recording (.built creatingEnd))
    (fun t => match t.graph.verify with
      | .error (.rejected error) => error = .unterminatedControl 3 (.control (.merge 1))
      | _ => false) (by decide +kernel)
  refine ⟨stats, t, run, ?_⟩
  split at refused
  · rename_i error answer
    rw [answer, of_decide_eq_true refused]
  · cases refused

end

end SeaOfNodes
