import SeaOfNodes.Proofs.Creation.Filled

/-! Which words of an instance are written when its constructor is known. -/

namespace SeaOfNodes

open List

-- Bytes of an instance before its in-object slots.
def InstanceType.header? : InstanceType → Option Nat
  | .jsObject => some 24
  | .jsArray => some 32
  | .jsRegExp => some 48
  | .jsGeneratorObject => some 80
  | .jsAsyncGeneratorObject => some 96
  | _ => none

def MapInfo.Shaped (map : MapInfo) (header : Nat) : Prop :=
  map.instanceType.header? = some header ∧ map.instanceSize.toNat = header + 8 * map.inObjectProperties.toNat

theorem MapInfo.words_iff {map : MapInfo} {header : Nat} (shaped : map.Shaped header) :
    ([0, 8, 16] ++ range' header map.inObjectProperties.toNat 8).Perm (Layout.words map.instanceSize.toNat) ↔
      map.instanceType = .jsObject := by
  obtain ⟨typed, size⟩ := shaped
  constructor
  · intro every
    have long := every.length_eq
    rw [length_append, Layout.words, length_range', length_range', size] at long
    cases named : map.instanceType with
    | jsObject => rfl
    | _ =>
      rw [named] at typed
      cases typed
      all_goals
        simp only [length_cons, length_nil] at long
        omega
  · intro named
    rw [named] at typed
    cases typed
    rw [size, Layout.words, show (24 + 8 * map.inObjectProperties.toNat) / 8 = map.inObjectProperties.toNat + 1 + 1 + 1 by omega,
      range'_succ, range'_succ, range'_succ]
    exact .refl _

namespace CreationContext

def knownInput? (c : CreationContext) (graph : Graph) (id : NodeId) (index : Nat) : Option ObjectRef :=
  (do c.typeOf graph (← graph.valueInput id index)).toOption.bind ValueType.object

def initialMap? (c : CreationContext) (graph : Graph) (id : NodeId) : Option (ObjectRef × MapInfo) := do
  c.inlineableMap? (← c.knownInput? graph id 0) (← c.knownInput? graph id 1)

theorem create_object_cases (c : CreationContext) {graph : Graph} {id : NodeId} {plan : Plan}
    (decided : c.createObject graph id = .ok (.inline plan)) :
    ∃ initial map, c.initialMap? graph id = some (initial, map) ∧ plan.last.size = map.instanceSize ∧ plan.last.allStores =
        Region.objectHeader initial (.heap Root.emptyFixedArray) ++ Region.allInObject map (fun _ => .heap Root.undefined) ∧
      plan.ending = .become := by
  obtain ⟨_, target, decided⟩ := bind_eq_ok.mp decided
  obtain ⟨first, firstTyped, decided⟩ := bind_eq_ok.mp decided
  obtain ⟨_, newTarget, decided⟩ := bind_eq_ok.mp decided
  obtain ⟨second, secondTyped, decided⟩ := bind_eq_ok.mp decided
  have called : c.knownInput? graph id 0 = first.object := by rw [knownInput?, bind_eq_ok.mpr ⟨_, target, firstTyped⟩]; rfl
  have asked : c.knownInput? graph id 1 = second.object := by rw [knownInput?, bind_eq_ok.mpr ⟨_, newTarget, secondTyped⟩]; rfl
  cases known : first.object with
  | none =>
    rw [known] at decided
    cases decided
  | some target =>
    cases made : second.object with
    | none =>
      rw [known, made] at decided
      cases decided
    | some newTarget =>
      rw [known, made] at decided
      dsimp only at decided
      cases found : c.inlineableMap? target newTarget with
      | none =>
        rw [found] at decided
        cases decided
      | some entry =>
        rw [found] at decided
        obtain ⟨_, decided⟩ := if_not_declined decided
        obtain ⟨_, _, decided⟩ := bind_eq_ok.mp decided
        obtain ⟨_, _, decided⟩ := bind_eq_ok.mp decided
        cases decided
        exact ⟨entry.1, entry.2, by rw [initialMap?, called, asked, known, made]; exact found, rfl, rfl, rfl⟩

end CreationContext

theorem instance_words_written (c : CreationContext) (s t : Workspace) (id : NodeId) (outcome : Reduction)
    (interned : s.graph.Interned) (creates : s.graph.op id = .ok (.create .object)) (run : c.reduce id s = .ok outcome t)
    (rewritten : outcome ≠ .unchanged) :
    ∃ initial map object stores last, c.initialMap? s.graph id = some (initial, map) ∧
      t.graph.op id = .ok .finishRegion ∧ t.graph.input id 0 = .ok object ∧ t.graph.effectInput id = .ok last ∧
      t.graph.allocated? object = some map.instanceSize ∧ t.graph.Follows object stores last ∧
      (∀ store ∈ stores, t.graph.input store 0 = .ok object) ∧
      ∀ header, map.Shaped header → ∃ offsets, offsets = [0, 8, 16] ++ List.range' header map.inObjectProperties.toNat 8 ∧
        stores.map t.graph.written? = offsets.map (fun offset => some (offset, 8)) ∧
        (offsets.Perm (Layout.words map.instanceSize.toNat) ↔ map.instanceType = .jsObject) := by
  obtain ⟨plan, decided, becomes⟩ := reduce_becomes c interned run rewritten
  rw [CreationContext.decide, creates] at decided
  obtain ⟨initial, map, found, size, all, ending⟩ := c.create_object_cases decided
  obtain ⟨rfl, old, mades, progress, nodes, last, became⟩ := becomes ending
  obtain ⟨sized, follows, into, written⟩ := region_written became.turns became.laid became.tidy.wide
  refine ⟨initial, map, nodes.object, nodes.stores, last, found, became.closes.1, became.closes.2.1,
    became.closes.2.2, size ▸ sized, follows, into, fun header shaped => ⟨_, rfl, ?_, MapInfo.words_iff shaped⟩⟩
  rw [written, all, Store.offsets_append, Region.allInObject, in_object_offsets _ shaped.2 0 (zero_add _)]
  rfl

-- The function that makes instances with a map is made with it.
def CreationContext.constructing (map : MapInfo) : CreationContext :=
  { heap := ⟨Snapshot.initial.objects ++ #[.sharedFunctionInfo ⟨.normal, 0, false, 0⟩, .map { map with constructor := some ⟨34⟩ },
      .function ⟨⟨32⟩, some ⟨33⟩, none, true⟩]⟩, config := {} }

def newInstance : List Edit :=
  [.constant (.constant (.heap Root.undefined)), .constant (.constant (.heap ⟨34⟩)), .addNode (.create .object) [3, 3, 2, 2, 0, 0] none]

theorem plain_instance_written :
    ∃ t object stores last, (CreationContext.constructing ⟨.jsObject, 32, 1, .holey, false, false, none, []⟩).reduce 4
        (.recording (.built newInstance)) = .ok (.changed 4) t ∧ t.graph.input 4 0 = .ok object ∧
      t.graph.Follows object stores last ∧ ∃ offsets : List Nat, stores.map t.graph.written? = offsets.map (fun offset => some (offset, 8)) ∧
        offsets.Perm (Layout.words 32) := by
  obtain ⟨outcome, t, run, changed⟩ := reduced_check (.constructing ⟨.jsObject, 32, 1, .holey, false, false, none, []⟩) 4
    (.recording (.built newInstance)) (fun outcome _ => outcome = .changed 4) (by decide +kernel)
  rw [of_decide_eq_true changed] at run
  obtain ⟨initial, map, object, stores, last, found, _, edge, _, _, follows, _, written⟩ :=
    instance_words_written _ _ t 4 _ (interned_check _ (by decide +kernel)) (by decide +kernel) run (by simp)
  have known : (CreationContext.constructing ⟨.jsObject, 32, 1, .holey, false, false, none, []⟩).initialMap? (.built newInstance) 4 =
    some (⟨33⟩, ⟨.jsObject, 32, 1, .holey, false, false, some ⟨34⟩, []⟩) := by decide +kernel
  cases found.symm.trans known
  obtain ⟨offsets, _, written, every⟩ := written 24 ⟨rfl, rfl⟩
  exact ⟨t, object, stores, last, run, edge, follows, offsets, written, every.mpr rfl⟩

theorem array_instance_length_unwritten :
    ∃ t, (CreationContext.constructing ⟨.jsArray, 32, 0, .holey, false, false, none, []⟩).reduce 4 (.recording (.built newInstance)) =
        .ok (.changed 4) t ∧
      ((t.graph.input 4 0).toOption.bind t.graph.allocated?) = some 32 ∧
      ∀ store < t.graph.size, t.graph.written? store ≠ some (24, 8) := by
  obtain ⟨outcome, t, run, found⟩ := reduced_check (.constructing ⟨.jsArray, 32, 0, .holey, false, false, none, []⟩) 4
    (.recording (.built newInstance)) (fun outcome t => outcome = .changed 4 &&
      ((t.graph.input 4 0).toOption.bind t.graph.allocated?) = some 32 &&
      (range t.graph.size).all fun store => t.graph.written? store != some (24, 8)) (by decide +kernel)
  simp only [Bool.and_eq_true, decide_eq_true_eq, all_eq_true, mem_range, bne_iff_ne] at found
  exact ⟨t, found.1.1 ▸ run, found.1.2, found.2⟩

end SeaOfNodes
