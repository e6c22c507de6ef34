import SeaOfNodes.Proofs.Creation.Instances
import SeaOfNodes.Proofs.Lowering.Steady

/-!
The limits on inline creation: creations that do not look at the size of an object, what becomes of sizes that no word can hold, and
what is left when every limit is zero.
-/

namespace SeaOfNodes

section

-- The bytes that a creation allocates without a look at the limit.
def CreationContext.unguarded? (c : CreationContext) : Creation → Option Nat
  | .blockContext scopeInfo => (c.heap.scopeInfo? scopeInfo).map fun info => 16 + 8 * info.contextLength.toNat
  | .emptyLiteralObject => (c.heap.map? NativeContext.objectLiteralMap).map fun map => map.instanceSize.toNat
  | _ => none

theorem unguarded_planned (c : CreationContext) {graph : Graph} {id : NodeId} {request : Creation} {size : Nat} {plan : Plan}
    (unguarded : c.unguarded? request = some size) (decided : c.decideCreation graph id request = .ok (.inline plan)) :
    plan.ending = .become ∧ plan.last.size.toNat = size := by
  cases request with
  | blockContext scopeInfo =>
    obtain ⟨info, found, rfl⟩ := Option.map_eq_some_iff.mp unguarded
    rw [CreationContext.decideCreation, CreationContext.createBlockContext, found] at decided
    obtain ⟨_, decided⟩ := unless_declined decided
    obtain ⟨context?, _, decided⟩ := bind_eq_ok.mp decided
    cases context? with
    | none => cases decided
    | some previous =>
      obtain ⟨_, _, decided⟩ := bind_eq_ok.mp decided
      obtain ⟨_, _, decided⟩ := bind_eq_ok.mp decided
      obtain ⟨_, _, decided⟩ := bind_eq_ok.mp decided
      obtain ⟨region, made, same⟩ := bind_eq_ok.mp decided
      cases same
      obtain ⟨_, built, same⟩ := bind_eq_ok.mp made
      cases same
      obtain ⟨_, sized, same⟩ := bind_eq_ok.mp built
      cases same
      exact ⟨rfl, Layout.fixed_array_size_eq_ok.mp sized⟩
  | emptyLiteralObject =>
    obtain ⟨map, found, rfl⟩ := Option.map_eq_some_iff.mp unguarded
    rw [CreationContext.decideCreation, CreationContext.createEmptyLiteralObject, found] at decided
    obtain ⟨_, _, decided⟩ := bind_eq_ok.mp decided
    obtain ⟨_, _, same⟩ := bind_eq_ok.mp decided
    cases same
    exact ⟨rfl, rfl⟩
  | _ => cases unguarded

def CreationContext.inBlock : CreationContext :=
  { heap := (Snapshot.initial.add (.scopeInfo ⟨.block, 7⟩)).2, config := { maxInlineArrayValues := 0, maxObjectSize := 64 } }

def blockScope : List Edit :=
  [.constant (.constant (.heap Root.undefined)), .addNode (.create (.blockContext ⟨32⟩)) [2, 2, 0, 0] none]

end

section

namespace CreationContext

-- What a guard makes of an array of so many words: it is computed in words itself.
def Bounds (c : CreationContext) (length : Nat) (decided : Except Fault Decision) : Prop :=
  (2 ^ 32 ≤ 16 + 8 * length → decided = .error .overflow) ∧
    (16 + 8 * length < 2 ^ 32 → c.config.maxObjectSize.toNat < 16 + 8 * length → decided = .ok .decline)

def withGuard (c : CreationContext) (length : UInt32) (next : Except Fault Decision) : Except Fault Decision := do
  unless c.fits (← Layout.fixedArraySize length) do return .decline
  next

theorem guard_bounds (c : CreationContext) (length : UInt32) {next : Except Fault Decision} :
    c.Bounds length.toNat (c.withGuard length next) := by
  constructor
  · intro wide
    refine bind_eq_error.mpr (.inl ?_)
    rw [Layout.fixedArraySize, checkedMul]
    split
    · rename_i fits
      refine if_neg (not_lt.mpr ?_)
      have product := checkedMul_eq_ok.mp (show checkedMul length Layout.slotSize = .ok _ from if_pos fits)
      show 2 ^ 32 ≤ 16 + (length * Layout.slotSize).toNat
      rw [product, mul_comm]
      exact wide
    · rfl
  · intro fits large
    have size := UInt32.toNat_ofNat_of_lt' fits
    refine bind_eq_ok.mpr ⟨_, Layout.fixed_array_size_eq_ok.mpr size, ?_⟩
    refine if_neg fun fine => not_le.mpr large ?_
    rw [← size]
    exact UInt32.le_iff_toNat_le.mp (of_decide_eq_true fine)

-- Creations that come to a guard, with the length of the array that it is about.
inductive Guarded (c : CreationContext) (graph : Graph) (id : NodeId) : Nat → Prop
  | generator {receiver : NodeId} {function initial : ObjectRef} {map : MapInfo} {registers : UInt32} :
      graph.op id = .ok (.create .generator) → c.knownInput? graph id 0 = some function → graph.valueInput id 1 = .ok receiver →
      c.generatorMap? function = some (initial, map, registers) → c.fits map.instanceSize = true → Guarded c graph id registers.toNat
  | context {slots : UInt32} {scope : Scope} :
      graph.op id = .ok (.create (.functionContext slots scope)) → slots < c.config.functionContextLimit →
      scope = .function ∨ scope = .eval → Guarded c graph id (slots.toNat + 4)

theorem guarded_bounds (c : CreationContext) {graph : Graph} {id : NodeId} {length : Nat} (guarded : c.Guarded graph id length) :
    c.Bounds length (c.decide graph id) := by
  cases guarded with
  | @generator receiver function initial map registers creates known read mapped small =>
    obtain ⟨type, found, object⟩ := Option.bind_eq_some_iff.mp known
    obtain ⟨closure, first, typed⟩ := bind_eq_ok.mp (ok_of_to_option _ _ found)
    rw [decide, creates]
    show c.Bounds _ (c.createGenerator graph id)
    rw [createGenerator, first, read]
    show c.Bounds _ (c.typeOf graph closure >>= _)
    rw [typed]
    simp only [bind, Except.bind, object, Option.bind_some, mapped, if_pos small]
    exact c.guard_bounds registers
  | @context slots scope creates few within =>
    rw [decide, creates]
    show c.Bounds _ (c.createFunctionContext graph id slots scope)
    have opened : ∃ next : UInt32 → Except Fault Decision, c.createFunctionContext graph id slots scope =
        checkedAdd slots Layout.minContextSlots >>= fun length => c.withGuard length (next length) := by
      unfold createFunctionContext
      rw [if_neg (UInt32.not_le.mpr few)]
      rcases within with rfl | rfl
      all_goals exact ⟨_, rfl⟩
    obtain ⟨next, same⟩ := opened
    rw [same]
    by_cases fits : slots.toNat + 4 < UInt32.size
    · obtain ⟨length, sum⟩ : ∃ length : UInt32, length.toNat = slots.toNat + 4 := ⟨_, UInt32.toNat_ofNat_of_lt' fits⟩
      rw [checkedAdd_eq_ok.mpr sum, ← sum]
      exact c.guard_bounds length
    · have small : ¬ 16 + 8 * (slots.toNat + 4) < 2 ^ 32 := by
        have : UInt32.size = 2 ^ 32 := rfl
        omega
      refine ⟨fun _ => bind_eq_error.mpr (.inl (if_neg fits)), fun all => absurd all small⟩

end CreationContext

section

variable {c : CreationContext} {s : Workspace} {id : NodeId}

theorem reduce_faults {fault : Fault} (decided : c.decide s.graph id = .error fault) : c.reduce id s = .error fault s := by
  have asked : Build.query (fun graph => c.decide graph id) s = .error fault s := by
    rw [Build.query, bind_get, decided]
    rfl
  exact bind_of_error _ _ _ asked

theorem reduce_asks {decision : Decision} (decided : c.decide s.graph id = .ok decision) :
    Build.query (fun graph => c.decide graph id) s = .ok decision s := Build.runs_query.mpr ⟨decided, rfl⟩

end

def CreationContext.generating (registers : UInt32) : CreationContext :=
  { heap := ⟨Snapshot.initial.objects ++ #[.sharedFunctionInfo ⟨.generator, 0, false, registers⟩,
      .map ⟨.jsGeneratorObject, 80, 0, .holey, false, false, none, []⟩, .function ⟨⟨32⟩, some ⟨33⟩, none, false⟩]⟩, config := {} }

def startedGenerator : List Edit :=
  [.constant (.constant (.heap Root.undefined)), .constant (.constant (.heap ⟨34⟩)),
   .addNode (.create .generator) [3, 2, 2, 0, 0] none, .addNode (.control (.ret 1)) [2, 4, 4, 4] none, .mergeToEnd 5]

end

section

def Graph.ReadsValues (graph : Graph) (id : NodeId) (count : Nat) : Prop :=
  ∀ index < count, ∃ value node, graph.valueInput id index = .ok value ∧ graph.node value = .ok node

namespace CreationContext

variable (c : CreationContext) {graph : Graph} {id : NodeId}

-- Creations that are inlined up to some size only. An array without arguments is none, nor is one of length zero.
def Bounded (graph : Graph) (id : NodeId) : Creation → Prop
  | .functionContext .. | .blockContext _ => True
  | .literalArray _ | .literalObject _ => graph.ReadsValues id 1
  | .array arity _ => graph.ReadsValues id 3 ∧ (1 < arity ∨ arity = 1 ∧ ∀ length type, graph.valueInput id 2 = .ok length →
      c.typeOf graph length = .ok type → type.meets .number = true ∧ type.constantLength? ≠ some 0)
  | _ => False

theorem literal_feedback_read (reads : graph.ReadsValues id 1) (slot : UInt32) : ∃ found, c.literalFeedback? graph id slot = .ok found := by
  obtain ⟨closure, node, read, there⟩ := reads 0 one_pos
  simp only [literalFeedback?, literalVector?, read, there, bind, Except.bind, pure, Except.pure]
  exact ⟨_, rfl⟩

theorem create_literal_shallow (shallow : c.config.maxLiteralDepth = 0) {slot : UInt32} {found : Option ObjectRef}
    (fed : c.literalFeedback? graph id slot = .ok found) :
    ∃ decision, c.createLiteral graph id slot = .ok decision ∧ ∀ plan, decision ≠ .inline plan := by
  simp only [createLiteral, fed, shallow, bind, Except.bind]
  cases found.bind c.heap.allocationSite? with
  | none => exact ⟨_, rfl, by simp⟩
  | some site =>
    dsimp only
    cases site.boilerplate with
    | none | some boilerplate => exact ⟨_, rfl, by simp⟩

theorem create_array_unlisted (unrolls : c.config.elementUnrollLimit = 0) (values : c.config.maxInlineArrayValues = 0) {arity : UInt32}
    {site : Option ObjectRef} (bounded : c.Bounded graph id (.array arity site)) : c.createArray graph id arity site = .ok .decline := by
  obtain ⟨reads, few⟩ := bounded
  obtain ⟨target, _, first, _⟩ := reads 0 (by decide)
  obtain ⟨newTarget, _, second, _⟩ := reads 1 (by decide)
  obtain ⟨length, node, third, there⟩ := reads 2 (by decide)
  obtain ⟨type, typed⟩ : ∃ type, c.typeOf graph length = .ok type := by
    rw [typeOf, there]
    dsimp only [bind, Except.bind]
    cases node.object? with
    | none => exact ⟨_, rfl⟩
    | some object => exact ⟨_, rfl⟩
  simp only [createArray, first, second, third, typed, bind, Except.bind]
  split
  · rfl
  cases site.bind c.heap.allocationSite? with
  | none => rfl
  | some site =>
    dsimp only
    split
    · rfl
    rcases few with several | ⟨rfl, numbers⟩
    · have some : arity ≠ 0 := by
        rintro rfl
        exact absurd several (by decide)
      have more : arity ≠ 1 := by
        rintro rfl
        exact absurd several (by decide)
      rw [if_neg some, if_neg more, values, if_neg fun none => some (UInt32.le_zero_iff.mp none)]
      rfl
    · obtain ⟨meets, nonzero⟩ := numbers length type third typed
      simp only [meets, unrolls]
      cases known : type.constantLength? with
      | none => rfl
      | some capacity =>
        show (if capacity ≤ 0 then _ else _) = _
        refine if_neg fun none => nonzero ?_
        rw [known, UInt32.le_zero_iff.mp none]

end CreationContext

theorem zero_limits_decline (c : CreationContext) (s : Workspace) (id : NodeId) (request : Creation)
    (config : c.config = .noInlineAllocation) (creates : s.graph.op id = .ok (.create request))
    (bounded : c.Bounded s.graph id request) : ∃ t, c.reduce id s = .ok .unchanged t ∧ t.graph = s.graph := by
  have declined : ∃ decision, c.decide s.graph id = .ok decision ∧ ∀ plan, decision ≠ .inline plan := by
    rw [CreationContext.decide, creates]
    show ∃ decision, c.decideCreation s.graph id request = .ok decision ∧ _
    cases request with
    | functionContext slots scope =>
      refine ⟨.decline, ?_, by simp⟩
      show c.createFunctionContext s.graph id slots scope = _
      unfold CreationContext.createFunctionContext
      rw [config]
      exact if_pos UInt32.zero_le
    | blockContext scopeInfo =>
      refine ⟨.decline, ?_, by simp⟩
      rw [CreationContext.decideCreation, CreationContext.createBlockContext, config]
      cases c.heap.scopeInfo? scopeInfo <;> rfl
    | literalArray site | literalObject site =>
      obtain ⟨_, fed⟩ := c.literal_feedback_read bounded site.slot
      exact c.create_literal_shallow (by rw [config]; rfl) fed
    | array arity site => exact ⟨_, c.create_array_unlisted (by rw [config]; rfl) (by rw [config]; rfl) bounded, by simp⟩
    | _ => cases bounded
  obtain ⟨decision, decided, declines⟩ := declined
  obtain ⟨t, run⟩ := decided_declines decided declines
  exact ⟨t, run, (reduce_declines run).1⟩

def CreationContext.unlimited : CreationContext := { CreationContext.pretenuring with config := .noInlineAllocation }

theorem pair_of_smis_declined :
    ∃ t, CreationContext.unlimited.reduce 3 (.recording (.built pairOfSmis)) = .ok .unchanged t ∧ t.graph = .built pairOfSmis := by
  have values : ∀ index < 3, (Graph.built pairOfSmis).valueInput 3 index = .ok 2 := by decide
  have there : (Graph.built pairOfSmis).node 2 = .ok { op := .constant (.heap Root.undefined), inputs := [] } := by decide
  exact zero_limits_decline .unlimited (.recording (.built pairOfSmis)) 3 (.array 2 (some ⟨32⟩)) rfl (by decide)
    ⟨fun index inside => ⟨2, _, values index inside, there⟩, .inl (by decide)⟩

def arrayWithoutArguments : List Edit :=
  [.constant (.constant (.heap Root.undefined)), .addNode (.create (.array 0 (some ⟨32⟩))) [2, 2, 2, 2, 0, 0] none]

-- An array without arguments has room for four elements whatever the limits; one that was killed has no inputs to look at.
theorem array_without_arguments_inlined :
    (∃ t, CreationContext.unlimited.reduce 3 (.recording (.built arrayWithoutArguments)) = .ok (.changed 3) t) ∧
      CreationContext.unlimited.reduce 3 (.recording (.built (arrayWithoutArguments ++ [.kill 3]))) =
        .error .assertion (.recording (.built (arrayWithoutArguments ++ [.kill 3]))) := by
  obtain ⟨outcome, t, run, changed⟩ := reduced_check .unlimited 3 (.recording (.built arrayWithoutArguments))
    (fun outcome _ => outcome = .changed 3) (by decide +kernel)
  exact ⟨⟨t, of_decide_eq_true changed ▸ run⟩, reduce_faults (by decide +kernel)⟩

end

end SeaOfNodes
