import SeaOfNodes.Proofs.Assembler.Jumps
import SeaOfNodes.Proofs.Graph.Finished

namespace SeaOfNodes

open List

namespace Graph

theorem empty_nodes {id : NodeId} {node : Node} (read : empty.node? id = some node) :
    id = start ∧ node = { op := .control .start, inputs := [] } ∨
      id = stop ∧ node = { op := .control (.stop 0), inputs := [] } := by
  have inside : id < 2 := empty.node_lt read
  rcases Nat.lt_succ_iff_lt_or_eq.mp inside with first | second
  · cases Nat.lt_one_iff.mp first
    exact .inl ⟨rfl, (Option.some.inj read).symm⟩
  · cases second
    exact .inr ⟨rfl, (Option.some.inj read).symm⟩

theorem empty_wired : empty.Wired := by
  refine ⟨?_, ⟨_, rfl, rfl⟩, le_refl 2, by simp [empty]⟩
  intro id node read
  rcases empty_nodes read with ⟨rfl, rfl⟩ | ⟨rfl, rfl⟩
  · exact
      { live := rfl
        fits := rfl
        counted := fun _ => rfl
        named := by simp
        earlier := by simp
        controls := by simp [controlInputs]
        single := fun _ => rfl
        exit := fun impossible => by cases impossible }
  · exact
      { live := rfl
        fits := rfl
        counted := fun _ => rfl
        named := by simp
        earlier := by simp
        controls := by simp [controlInputs]
        single := fun impossible => by cases impossible
        exit := fun _ => ⟨rfl, by simp⟩ }

-- Parameters hang on the entry, which stays the only control.
theorem parameters_wired {indices : List Nat} {graph next : Graph} {known parameters : List NodeId} (wired : graph.Wired)
    (alone : ∀ id, graph.Carries Operator.isControl id → id = start) (named : ∀ id ∈ known, graph.Named id)
    (run : indices.foldlM (fun (parameters, graph) index => do
      let (id, graph) ← Graph.addNode graph (.parameter (UInt32.ofNat index)) [Graph.start]
      return (parameters ++ [id], graph)) (known, graph) = (.ok (parameters, next) : Except Fault (List NodeId × Graph))) :
    next.Wired ∧ (∀ id, next.Carries Operator.isControl id → id = start) ∧ ∀ id ∈ parameters, next.Named id := by
  induction indices generalizing graph known with
  | nil =>
    cases run
    exact ⟨wired, alone, named⟩
  | cons index rest ih =>
    obtain ⟨⟨_, _⟩, first, later⟩ := bind_eq_ok.mp run
    obtain ⟨⟨id, middle⟩, made, same⟩ := bind_eq_ok.mp first
    cases same
    obtain ⟨fits, counted, pushed⟩ := graph.add_node_eq_ok.mp made
    cases pushed
    obtain ⟨node, read, starts⟩ := wired.entry
    have leads : graph.Carries Operator.continues start := ⟨node, read, by rw [starts]; rfl⟩
    have below := graph.wired_named wired leads fun _ => rfl
    have grown := graph.grown_push { op := .parameter (UInt32.ofNat index), inputs := [start] }
    refine ih (graph.wired_push wired _ [start] fits counted ?_ ?_ (by simp)) ?_ ?_ later
    · exact fun input member => mem_singleton.mp member ▸ below
    · exact fun input member => mem_singleton.mp (mem_of_mem_drop member) ▸ leads
    · rintro id ⟨found, there, control⟩
      rw [node_push] at there
      split at there
      · cases there
        cases control
      · exact alone id ⟨found, there, control⟩
    · have room := wired.room
      exact forall_mem_append.mpr ⟨fun id old => grown.named (named id old), forall_mem_singleton.mpr
        ⟨by rw [size_push]; exact Nat.lt_succ_self _, Nat.ne_of_gt (show 1 < graph.size by omega)⟩⟩

end Graph

namespace Assembler

theorem start_sound {descriptor : CallDescriptor} {config : AssemblerConfig} {a : Assembler}
    (run : start descriptor config { mode := .recording } = .ok a) :
    Sound [] a ∧ ∀ id ∈ a.parameters, a.graph.Named id := by
  simp only [start, Graph.withCapacity, bind_eq_ok, pure_eq_ok] at run
  obtain ⟨_, ⟨_, _, rfl⟩, ⟨parameters, graph⟩, added, rfl⟩ := run
  have alone : ∀ id, Graph.empty.Carries Operator.isControl id → id = Graph.start := by
    rintro id ⟨node, read, control⟩
    rcases Graph.empty_nodes read with ⟨same, _⟩ | ⟨_, rfl⟩
    · exact same
    · cases control
  obtain ⟨wired, still, named⟩ := Graph.parameters_wired Graph.empty_wired alone (by simp) added
  obtain ⟨node, read, starts⟩ := wired.entry
  have leads : graph.Carries Operator.continues Graph.start := ⟨node, read, by rw [starts]; rfl⟩
  refine ⟨⟨rfl, wired, ?_, ?_, ?_, ?_, ?_⟩, named⟩
  · intro position open_
    cases open_
    exact ⟨graph.wired_named wired leads fun _ => rfl, leads⟩
  · intro id info value impossible
    cases impossible
  · intro id info arrivals impossible
    cases impossible
  · intro id info binding impossible
    cases impossible
  · intro _ id control
    exact .inr (.inr (.inl ⟨_, rfl, (still id control).symm⟩))

end Assembler

-- An assembler after commands that reported nothing, with the nodes that it handed out.
inductive Session (descriptor : CallDescriptor) (config : AssemblerConfig) : Assembler → List NodeId → Prop
  | start (a : Assembler) (run : Assembler.start descriptor config { mode := .recording } = .ok a) :
      Session descriptor config a a.parameters
  | step (a b : Assembler) (given : List NodeId) (command : Command) (outcome : Outcome)
      (before : Session descriptor config a given) (known : ∀ id ∈ command.given, id ∈ given)
      (last : ∀ call handler exception, command = .gotoIfException call handler exception →
        a.current.map Position.control = some call)
      (run : command.run a = .ok outcome b) (calm : b.journal.violations = #[]) :
      Session descriptor config b (outcome.answers ++ given)
  | generate (a b : Assembler) (given : List NodeId) (name : String) (flags : CodeFlags) (limit : Nat)
      (code : Except CompileError Listing) (before : Session descriptor config a given)
      (run : Assembly.generate name flags limit a = .ok code b) (calm : b.journal.violations = #[]) :
      Session descriptor config b given

namespace Assembly

open Assembler

variable {a b : Assembler}

theorem command_sound {command : Command} {outcome : Outcome} (sound : Sound [] a)
    (named : ∀ id ∈ command.given, a.graph.Named id)
    (last : ∀ call handler exception, command = .gotoIfException call handler exception →
      a.current.map Position.control = some call)
    (run : command.run a = .ok outcome b) (calm : b.Quiet) :
    Sound [] b ∧ Graph.Grown a.graph b.graph ∧ ∀ id ∈ outcome.answers, b.graph.Named id := by
  cases command with
  | readVariable var =>
    simp only [Command.run, runs_bind, runs_pure] at run
    obtain ⟨value, _, done, rfl, rfl⟩ := run
    obtain ⟨kept, grown, known⟩ := preserves_variable_value [] var [] a value _ sound (by simp) done
    obtain ⟨node, rfl⟩ := variable_value_bound sound calm done
    exact ⟨kept, grown, known⟩
  | gotoIfException call handler exception =>
    simp only [Command.run, runs_bind, runs_pure] at run
    obtain ⟨_, _, done, rfl, rfl⟩ := run
    obtain ⟨kept, grown⟩ := goto_if_exception_sound sound (named call mem_cons_self) (fun position open_ => by
        have here := last call handler exception rfl
        rw [open_] at here
        exact Option.some.inj here) done
    exact ⟨kept, grown, by simp [Outcome.answers]⟩
  | _ =>
    exact judged_command preserves_discipline preserves_branching (straight_call preserves_discipline trivial) _ (by simp)
      (by simp) [] a outcome b sound named run

end Assembly

namespace Session

open Assembler

variable {descriptor : CallDescriptor} {config : AssemblerConfig} {a : Assembler} {given : List NodeId}

theorem sound (session : Session descriptor config a given) : Sound [] a ∧ ∀ id ∈ given, a.graph.Named id := by
  induction session with
  | start a run => exact start_sound run
  | step a b given command outcome _ known last run calm ih =>
    obtain ⟨kept, named⟩ := ih
    obtain ⟨final, grown, answers⟩ := Assembly.command_sound kept (fun id member => named id (known id member)) last run calm
    exact ⟨final, forall_mem_append.mpr ⟨answers, fun id old => grown.named (named id old)⟩⟩
  | generate a b given name flags limit code _ run _ ih =>
    obtain ⟨kept, named⟩ := ih
    obtain ⟨final, grown, _⟩ := Assembly.straight_generate Assembly.preserves_discipline [] name flags limit [] a code b kept (by simp) run
    exact ⟨final, fun id member => grown.named (named id member)⟩

theorem quiet (session : Session descriptor config a given) : a.Quiet := by
  cases session with
  | start a run =>
    simp only [Assembler.start, bind_eq_ok, pure_eq_ok] at run
    obtain ⟨_, _, _, _, rfl⟩ := run
    rfl
  | step _ _ _ _ _ _ _ _ _ calm => exact calm
  | generate _ _ _ _ _ _ _ _ _ calm => exact calm

end Session

namespace Session

def splitsLast (a : Assembler) : Command → Bool
  | .gotoIfException site _ _ => a.current.map Position.control == some site
  | _ => true

def play : List Command → Assembler → List NodeId → Option (Assembler × List NodeId)
  | [], a, given => some (a, given)
  | command :: rest, a, given =>
    match command.run a with
    | .ok outcome b =>
      if command.given.all given.contains && splitsLast a command && b.journal.violations.isEmpty then
        play rest b (outcome.answers ++ given)
      else none
    | .error .. => none

theorem play_session {descriptor : CallDescriptor} {config : AssemblerConfig} {commands : List Command} {a b : Assembler}
    {given more : List NodeId} (before : Session descriptor config a given) (played : play commands a given = some (b, more)) :
    Session descriptor config b more := by
  induction commands generalizing a given with
  | nil =>
    cases played
    exact before
  | cons command rest ih =>
    rw [play] at played
    split at played
    · rename_i outcome next run
      split at played
      · rename_i checked
        simp only [Bool.and_eq_true, all_eq_true, contains_iff_mem, Array.isEmpty_iff] at checked
        refine ih (.step a next given command outcome before checked.1.1 ?_ run checked.2) played
        rintro call handler exception rfl
        exact beq_iff_eq.mp checked.1.2
      · cases played
    · cases played

def guarded : List Command :=
  [.newVariable none .tagged (some 2), .newLabel .loop [0], .newLabel .plain [], .newLabel .deferred [], .goto 0, .bind 0,
   .callNative .rootsArrayStart (some .anyTagged) [(.anyTagged, 3)], .gotoIfException 10 2 none, .bindVariable 0 10,
   .branch 2 0 1, .bind 1, .ret [10], .bind 2, .ret [3]]

end Session

end SeaOfNodes
