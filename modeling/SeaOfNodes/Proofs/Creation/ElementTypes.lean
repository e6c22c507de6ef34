import SeaOfNodes.Proofs.Creation.ArrayValues
import SeaOfNodes.Proofs.Creation.Limits
import SeaOfNodes.Proofs.Subtyping

/-! Elements are within the kinds that their access declares, but for the holes of an array without arguments. -/

namespace SeaOfNodes

open List

theorem Kinds.within_any (a : Kinds) : a.within .any := by
  rw [Kinds.within, show Kinds.any = BitVec.allOnes 18 from by decide, BitVec.and_allOnes]
  exact beq_self_eq_true a

theorem Double.clamped_of_zero {x : Double} (zero : x.magnitude = 0) : x.toUInt32Clamped = 0 := by
  have part : x.integerPart = 0 := by simp [integerPart, significand, scale, exponent, fraction, zero]
  simp [toUInt32Clamped, part, isFinite, zero, infinityMagnitude, exponentUnit]

-- A length that is known and not zero is positive, so that an array of that length is holey.
theorem ValueType.constant_length_positive {type : ValueType} {capacity : UInt32} (known : type.constantLength? = some capacity)
    (some : capacity ≠ 0) : Double.zero.lt type.max := by
  unfold constantLength? at known
  split at known
  · rename_i bounds
    cases known
    simp only [Bool.and_eq_true, Double.eq, Double.le, Bool.not_eq_true', decide_eq_true_eq] at bounds
    obtain ⟨⟨_, ⟨_, number⟩, same⟩, _, least⟩ := bounds
    have base : Double.zero.key = 0 := by decide
    simp only [Double.lt, number, Bool.and_eq_true, decide_eq_true_eq, base, ← same]
    refine ⟨by decide, lt_of_le_of_ne (base ▸ least) fun none => some (Double.clamped_of_zero ?_)⟩
    rw [Double.key] at none
    split at none <;> omega
  · cases known

-- A store of one of the objects that a plan builds.
def Plan.Emits (plan : Plan) (store : Store) : Prop :=
  store ∈ plan.last.allStores ∨ ∃ region, .region region ∈ plan.actions ∧ store ∈ region.allStores

variable {kind : ElementsKind} {generation : Generation}

theorem elements_emit {operands : List Operand} {region : Region} (made : Region.elements kind generation operands = .ok region) :
    (∀ access index value, Store.element access index value ∈ region.allStores → access = kind.access ∧ value ∈ operands) ∧
      ∀ value ∈ operands, ∃ index, Store.element kind.access index value ∈ region.allStores := by
  have all : ∃ map, region.allStores = Region.arrayHeader (UInt32.ofNat operands.length) map ++
      operands.zipIdx.map fun entry => .element kind.access (UInt32.ofNat entry.2) entry.1 := by
    rw [Region.elements] at made
    split at made
    all_goals
      obtain ⟨size, _, same⟩ := bind_eq_ok.mp made
      cases same
      exact ⟨_, append_nil _⟩
  obtain ⟨map, all⟩ := all
  rw [all]
  constructor
  · intro access index value member
    rcases mem_append.mp member with header | listed
    · simp [Region.arrayHeader] at header
    · obtain ⟨entry, inside, same⟩ := mem_map.mp listed
      cases same
      exact ⟨rfl, fst_mem_of_mem_zipIdx inside⟩
  · intro value member
    obtain ⟨index, found⟩ := getElem?_of_mem member
    exact ⟨_, mem_append_right _ (mem_map.mpr ⟨(value, index), mem_zipIdx_iff_getElem?.mpr found, rfl⟩)⟩

theorem ElementsKind.tagged_of_access (single : kind.access ≠ .fixedDoubleArray) : kind.isDouble = false := by
  refine Bool.eq_false_iff.mpr fun double => single ?_
  rw [access, if_pos double]

theorem array_emits_nothing {map : ObjectRef} {elements length value : Operand} {access : ElementAccess} {index : UInt32} :
    Store.element access index value ∉ (Region.array map kind generation elements length).allStores := by
  simp [Region.array, Region.allStores, Region.objectHeader, Fill.stores]

namespace CreationContext

variable (c : CreationContext) {graph : Graph} {id : NodeId} {plan : Plan} {checks : List Action} {next : Nat}

-- An operand is within kinds as a value of the graph, as an object of the heap, or as what an action is to make.
def OperandWithin (graph : Graph) (actions : List Action) (kinds : Kinds) : Operand → Prop
  | .node id => ∀ type, c.typeOf graph id = .ok type → type.kinds.within kinds = true
  | .constant (.heap object) => (c.heap.kindsOf object).within kinds = true
  | .constant _ => False
  | .made action => ∃ op values type, actions[action]? = some (.node op values type) ∧ type.kinds.within kinds = true

def StoresAdmitted (graph : Graph) (plan : Plan) : Prop :=
  ∀ access index value, plan.Emits (.element access index value) → access ≠ .fixedDoubleArray →
    c.OperandWithin graph plan.actions access.kinds value

theorem hole_admitted_iff {actions : List Action} (tagged : kind.isDouble = false) :
    c.OperandWithin graph actions kind.access.kinds (.constant kind.hole) ↔ kind ≠ .packedSmi := by
  have hole : c.heap.kindsOf Root.theHole = .hole := if_pos rfl
  rw [ElementsKind.hole, tagged]
  show (c.heap.kindsOf Root.theHole).within _ = true ↔ _
  rw [hole]
  revert tagged
  cases kind <;> decide

theorem checked_element_admitted (tagged : kind.isDouble = false) {value : NodeId} {operand : Operand}
    (run : c.checkedElement graph kind value next = .ok (checks, operand)) (before after : List Action)
    (counted : before.length = next) : c.OperandWithin graph (before ++ checks ++ after) kind.access.kinds operand := by
  obtain ⟨type, typed, run⟩ := bind_eq_ok.mp run
  by_cases smi : kind.isSmi
  · have small : Kinds.signedSmall.within kind.access.kinds := by
      revert smi
      cases kind <;> decide
    rw [if_pos smi] at run
    by_cases fits : type.within .signedSmall
    · rw [if_pos fits] at run
      cases run
      intro other known
      have within := (typed_of_element_type c .signedSmall typed other known).trans fits
      exact Kinds.within_trans (ValueType.within_iff.mp within).1 small
    · rw [if_neg fits] at run
      cases run
      exact ⟨.checkSmi, [.node value], .signedSmall, by simp [← counted], small⟩
  · rw [if_neg smi, if_neg (Bool.eq_false_iff.mp tagged)] at run
    cases run
    have any : kind.access.kinds = .any := by
      rw [ElementsKind.access, if_neg (Bool.eq_false_iff.mp tagged), ElementAccess.fixedArray, if_neg smi]
    exact fun type _ => any ▸ type.kinds.within_any

theorem checked_elements_admitted (tagged : kind.isDouble = false) {values : List NodeId} {elements : List Operand}
    (run : c.checkedElements graph kind values next = .ok (checks, elements)) (before after : List Action)
    (counted : before.length = next) :
    ∀ operand ∈ elements, c.OperandWithin graph (before ++ checks ++ after) kind.access.kinds operand := by
  induction values generalizing next checks elements before with
  | nil =>
    cases run
    simp
  | cons value rest ih =>
    obtain ⟨⟨first, operand⟩, here, run⟩ := bind_eq_ok.mp run
    obtain ⟨⟨further, operands⟩, there, same⟩ := bind_eq_ok.mp run
    cases same
    have within := c.checked_element_admitted tagged here before (further ++ after) counted
    have all := ih there (before ++ first) (by rw [length_append, counted])
    simp only [append_assoc] at within all ⊢
    exact forall_mem_cons.mpr ⟨within, all⟩

theorem array_of_admitted {values : List NodeId} (decided : c.arrayOf graph id values kind generation = .ok (.inline plan)) :
    c.StoresAdmitted graph plan := by
  obtain ⟨map, checks, elements, store, array⟩ := c.array_of_cases decided
  intro access index value emits single
  rw [Plan.Emits, array.last, array.actions] at emits
  obtain ⟨region, listed, member⟩ := emits.resolve_left array_emits_nothing
  have prepares := (yields_ok _ _ (@checked_elements_fine False graph c kind values 0 False.elim) array.checked).1
  rcases mem_append.mp listed with early | late
  · exact (prepares _ early).1.elim
  · have same : region = store := by simpa using late
    obtain ⟨rfl, inside⟩ := (elements_emit array.stored).1 _ _ _ (same ▸ member)
    rw [array.actions]
    exact c.checked_elements_admitted (ElementsKind.tagged_of_access single) array.checked [] _ rfl value inside

-- The kind that an empty array gets: one of a known length has holes.
def Emptied (graph : Graph) (kind : ElementsKind) : Option NodeId → ElementsKind → Prop
  | none, final => final = kind
  | some length, final => ∃ type, c.typeOf graph length = .ok type ∧ final = if Double.zero.lt type.max then kind.toHoley else kind

theorem empty_array_admitted_iff {length : Option NodeId} {capacity : UInt32}
    (decided : c.emptyArray graph id length kind capacity generation = .ok (.inline plan)) :
    ∃ final, c.Emptied graph kind length final ∧ (c.StoresAdmitted graph plan ↔ capacity = 0 ∨ final ≠ .packedSmi) := by
  unfold emptyArray at decided
  extract_lets allocated at decided
  have rest (final : ElementsKind) (decided : allocated final = .ok (.inline plan)) :
      c.StoresAdmitted graph plan ↔ capacity = 0 ∨ final ≠ .packedSmi := by
    dsimp only [allocated] at decided
    cases mapped : NativeContext.arrayMap? final with
    | none =>
      rw [mapped] at decided
      cases decided
    | some map =>
      rw [mapped] at decided
      obtain ⟨_, _, decided⟩ := bind_eq_ok.mp decided
      obtain ⟨_, decided⟩ := if_not_declined decided
      obtain ⟨_, _, decided⟩ := bind_eq_ok.mp decided
      obtain ⟨_, _, decided⟩ := bind_eq_ok.mp decided
      by_cases none : capacity = 0
      · rw [if_pos none] at decided
        cases decided
        refine ⟨fun _ => .inl none, fun _ access index value emits _ => ?_⟩
        cases length <;> simp [Plan.Emits, array_emits_nothing] at emits
      · rw [if_neg none] at decided
        obtain ⟨region, built, decided⟩ := bind_eq_ok.mp decided
        cases decided
        obtain ⟨only, all⟩ := elements_emit built
        constructor
        · intro admitted
          refine .inr fun smi => ?_
          subst smi
          obtain ⟨index, stored⟩ := all _ (mem_replicate.mpr ⟨fun zero => none (UInt32.toNat_inj.mp zero), rfl⟩)
          exact (c.hole_admitted_iff rfl).mp (admitted _ index _ (.inr ⟨region, by simp, stored⟩) (by decide)) rfl
        · intro fine access index value emits single
          have stored : Store.element access index value ∈ region.allStores := by
            cases length <;> simpa [Plan.Emits, array_emits_nothing] using emits
          obtain ⟨rfl, listed⟩ := only _ _ _ stored
          rw [(mem_replicate.mp listed).2]
          exact (c.hole_admitted_iff (ElementsKind.tagged_of_access single)).mpr (fine.resolve_left none)
  cases length with
  | none => exact ⟨kind, rfl, rest kind decided⟩
  | some length =>
    obtain ⟨type, typed, decided⟩ := bind_eq_ok.mp decided
    exact ⟨_, ⟨type, typed, rfl⟩, rest _ decided⟩

-- An array without arguments that is to hold small integers gets holes all the same.
def Unfilled : Creation → Prop
  | .array arity site => arity = 0 ∧ (site.bind c.heap.allocationSite?).map AllocationSite.elementsKind = some .packedSmi
  | _ => False

theorem create_array_admitted_iff {arity : UInt32} {site : Option ObjectRef}
    (decided : c.createArray graph id arity site = .ok (.inline plan)) :
    c.StoresAdmitted graph plan ↔ ¬ c.Unfilled (.array arity site) := by
  obtain ⟨known, found, generation, ⟨rfl, empty⟩ | ⟨length, type, capacity, rfl, _, typed, _, constant, empty⟩ | listed⟩ :=
    c.create_array_cases decided
  · obtain ⟨final, rfl, admitted⟩ := c.empty_array_admitted_iff empty
    simp [admitted, Unfilled, found, preallocatedElements]
  · obtain ⟨final, ⟨type', again, rfl⟩, admitted⟩ := c.empty_array_admitted_iff empty
    cases typed.symm.trans again
    refine iff_of_true (admitted.mpr ?_) (by simp [Unfilled])
    by_cases none : capacity = 0
    · exact .inl none
    · rw [if_pos (ValueType.constant_length_positive constant none)]
      exact .inr (by cases known.elementsKind <;> decide)
  · obtain ⟨values, kind, lists, decided⟩ := listed
    refine iff_of_true (c.array_of_admitted decided) fun unfilled => ?_
    obtain ⟨rfl, _⟩ := unfilled
    cases lists with
    | several _ _ many _ => exact absurd many (by decide)

theorem create_empty_literal_array_admitted {slot : UInt32}
    (decided : c.createEmptyLiteralArray graph id slot = .ok (.inline plan)) : c.StoresAdmitted graph plan := by
  obtain ⟨found, _, decided⟩ := bind_eq_ok.mp decided
  cases known : found.bind c.heap.allocationSite? with
  | none =>
    rw [known] at decided
    cases decided
  | some site =>
    rw [known] at decided
    obtain ⟨_, decided⟩ := unless_declined decided
    obtain ⟨_, _, admitted⟩ := c.empty_array_admitted_iff decided
    exact admitted.mpr (.inl rfl)

end CreationContext

end SeaOfNodes
