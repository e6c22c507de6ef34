import SeaOfNodes.Proofs.Creation.Literals

/-! What the budget of a literal is charged for. -/

namespace SeaOfNodes

open List

namespace CreationContext

variable {budget rest before after : Nat} {value : TaggedValue} {elements : ObjectRef}

def taggedElements (c : CreationContext) (elements : ObjectRef) : List TaggedValue :=
  match c.heap.get? elements with
  | some (.fixedArray map values) => if map = Root.copyOnWriteArrayMap then [] else values.reduceOption
  | _ => []

def fieldValue? (fields : List TaggedValue) (property : Property) : Option TaggedValue :=
  match property.place with
  | .descriptor => none
  | .field _ index => fields[index.toNat]?

def held (c : CreationContext) (ref : ObjectRef) : List TaggedValue :=
  match c.heap.plainObject? ref with
  | none => []
  | some object =>
    match c.heap.map? object.map with
    | none => []
    | some map => c.taggedElements object.elements ++ map.properties.filterMap (fieldValue? object.fields)

def copied (c : CreationContext) : Nat → ObjectRef → List ObjectRef
  | 0, _ => []
  | depth + 1, ref => ref :: ((c.held ref).filterMap c.nestedLiteral?).flatMap (c.copied depth)

def storedElements (c : CreationContext) (elements : ObjectRef) : Nat :=
  match c.heap.get? elements with
  | some (.fixedArray map values) => if map = Root.copyOnWriteArrayMap then 0 else values.length
  | some (.fixedDoubleArray values) => values.length
  | _ => 0

def slots (c : CreationContext) (ref : ObjectRef) : Nat :=
  match c.heap.plainObject? ref with
  | none => 0
  | some object =>
    match c.heap.map? object.map with
    | none => 0
    | some map => map.properties.countP (fun property => property.place ≠ .descriptor) + c.storedElements object.elements

def spared (c : CreationContext) (ref : ObjectRef) : Nat :=
  match c.heap.plainObject? ref with
  | none => 0
  | some object =>
    match c.heap.get? object.elements with
    | some (.fixedArray map values) => if map = Root.copyOnWriteArrayMap then 0 else (values.filter Option.isNone).length
    | some (.fixedDoubleArray values) => values.length
    | _ => 0

theorem sum_filter_map {α β : Type} (items : List α) (choose : α → Option β) (weight : β → Nat) :
    ((items.filterMap choose).map weight).sum = (items.map fun item => (choose item).elim 0 weight).sum := by
  induction items with
  | nil => rfl
  | cons item rest ih =>
    rw [map_cons, sum_cons, ← ih]
    cases chosen : choose item with
    | none => rw [filterMap_cons_none chosen, Option.elim_none, zero_add]
    | some result => rw [filterMap_cons_some chosen, map_cons, sum_cons, Option.elim_some]

theorem fold_charges {α : Type} {items : List α} {step : Nat → α → Except LiteralDecline Nat} {cost : α → Nat}
    (each : ∀ item ∈ items, ∀ before after, step before item = .ok after → cost item + after = before)
    (run : items.foldlM step budget = .ok rest) : (items.map cost).sum + rest = budget := by
  induction items generalizing budget with
  | nil =>
    cases run
    exact zero_add _
  | cons item others ih =>
    rw [foldlM_cons, bind_eq_ok] at run
    obtain ⟨middle, first, later⟩ := run
    obtain ⟨here, there⟩ := forall_mem_cons.mp each
    rw [map_cons, sum_cons, add_assoc, ih there later]
    exact here budget middle first

theorem spend_charges (run : spend before = .ok after) : 1 + after = before := by
  cases before with
  | zero => cases run
  | succ before =>
    cases run
    exact add_comm _ _

section

variable (c : CreationContext) (nested : ObjectRef → Nat → Except LiteralDecline Nat) (weight : ObjectRef → Nat)

def worth (value : TaggedValue) : Nat := 1 + (c.nestedLiteral? value).elim 0 weight

variable (charges : ∀ inner before after, nested inner before = .ok after → weight inner + after = before)

include charges

theorem check_nested_charges (run : c.checkNested nested value before = .ok after) :
    (c.nestedLiteral? value).elim 0 weight + after = before := by
  rw [checkNested] at run
  cases found : c.nestedLiteral? value with
  | none =>
    rw [found] at run
    cases run
    exact zero_add _
  | some inner =>
    rw [found] at run
    exact charges inner before after run

theorem check_elements_charges (run : c.checkElements nested elements budget = .ok rest) :
    ((c.taggedElements elements).map (c.worth weight)).sum + rest = budget := by
  rw [checkElements] at run
  split at run
  · rename_i store values found
    rw [taggedElements, found]
    dsimp only
    by_cases shared : values = [] ∨ store = Root.copyOnWriteArrayMap
    · rw [if_pos (by simpa using shared)] at run
      cases run
      rcases shared with rfl | rfl
      · simp
      · simp
    · rw [if_neg (by simpa using shared)] at run
      rw [if_neg (not_or.mp shared).2]
      split at run
      · refine fold_charges (fun value _ before after step => ?_) run
        obtain ⟨left, spent, checked⟩ := bind_eq_ok.mp step
        have one := spend_charges spent
        have below := c.check_nested_charges nested weight charges checked
        rw [worth]
        omega
      · cases run
  · rename_i values found
    rw [taggedElements, found]
    split at run
    · cases run
      exact zero_add _
    · cases run
  · cases run

theorem check_field_charges (map : MapInfo) (fields : List TaggedValue) (property : Property) (before after : Nat)
    (run : c.checkField nested map fields before property = .ok after) :
    (fieldValue? fields property).elim 0 (c.worth weight) + after = before := by
  rw [checkField] at run
  rw [fieldValue?]
  cases place : property.place with
  | descriptor =>
    rw [place] at run
    cases run
    exact zero_add _
  | field representation index =>
    rw [place] at run
    obtain ⟨left, spent, run⟩ := bind_eq_ok.mp run
    dsimp only at run ⊢
    split at run
    · cases run
    split at run
    · cases run
    · rename_i value found
      split at run
      · cases run
      · have one := spend_charges spent
        have below := c.check_nested_charges nested weight charges run
        rw [found, Option.elim_some, worth]
        omega

theorem check_object_charges {ref : ObjectRef} (run : c.checkObject nested ref budget = .ok rest) :
    ((c.held ref).map (c.worth weight)).sum + rest = budget := by
  rw [checkObject] at run
  split at run
  · cases run
  rename_i object there
  split at run
  · cases run
  rename_i map known
  dsimp only at run
  split at run
  · cases run
  split at run
  · obtain ⟨left, stored, run⟩ := bind_eq_ok.mp run
    split at run
    · cases run
    · have elements := c.check_elements_charges nested weight charges stored
      have fields := fold_charges (fun property _ before after =>
        c.check_field_charges nested weight charges map object.fields property before after) run
      simp only [held, there, known, map_append, sum_append, sum_filter_map]
      omega
  · cases run

end

variable (c : CreationContext)

theorem sum_copied (weight : ObjectRef → Nat) (depth : Nat) (ref : ObjectRef) :
    ((c.copied (depth + 1) ref).map weight).sum = weight ref +
      ((c.held ref).map fun value => (c.nestedLiteral? value).elim 0 fun inner => ((c.copied depth inner).map weight).sum).sum := by
  rw [copied, map_cons, sum_cons, ← sum_filter_map, map_flatMap, flatMap, sum_flatten, map_map]
  rfl

theorem check_literal_charges (depth : Nat) (ref : ObjectRef) (budget rest : Nat)
    (run : c.checkLiteral depth ref budget = .ok rest) :
    ((c.copied depth ref).map fun inner => (c.held inner).length).sum + rest = budget := by
  induction depth generalizing ref budget rest with
  | zero => cases run
  | succ depth ih =>
    have ones : ((c.held ref).map fun _ => 1).sum = (c.held ref).length := by simp
    have charged : ((c.held ref).map fun value => 1 + (c.nestedLiteral? value).elim 0 _).sum + rest = budget :=
      c.check_object_charges _ _ ih run
    rw [sum_map_add, ones] at charged
    rw [sum_copied]
    exact charged

theorem mem_tagged_elements :
    value ∈ c.taggedElements elements ↔ ∃ store values, c.heap.get? elements = some (.fixedArray store values) ∧
      store ≠ Root.copyOnWriteArrayMap ∧ some value ∈ values := by
  rw [taggedElements]
  cases found : c.heap.get? elements with
  | none => simp
  | some stored =>
    cases stored with
    | fixedArray store values =>
      by_cases shared : store = Root.copyOnWriteArrayMap
      · simp [shared]
      · simp [shared, reduceOption_mem_iff]
    | _ => simp

theorem mem_field_values {properties : List Property} {fields : List TaggedValue} :
    value ∈ properties.filterMap (fieldValue? fields) ↔ ∃ property ∈ properties, ∃ representation index,
      property.place = .field representation index ∧ fields[index.toNat]? = some value := by
  rw [mem_filterMap]
  refine exists_congr fun property => and_congr_right fun _ => ?_
  rw [fieldValue?]
  cases property.place with
  | descriptor => simp
  | field representation index => simp

theorem mem_carried (outer inner : ObjectRef) : inner ∈ (c.held outer).filterMap c.nestedLiteral? ↔ c.Copies outer inner := by
  rw [mem_filterMap, held, Copies]
  cases there : c.heap.plainObject? outer with
  | none => simp
  | some object =>
    cases known : c.heap.map? object.map with
    | none => simp [known]
    | some map =>
      simp only [known, Option.some.injEq, exists_eq_left', exists_and_left, mem_append, mem_tagged_elements,
        mem_field_values, Carries]
      refine exists_congr fun value => ?_
      rw [and_comm, or_comm]

theorem mem_copied (sized : MapInfo → Prop) (depth : Nat) (ref : ObjectRef) (copyable : c.Copyable sized depth ref)
    (inner : ObjectRef) : inner ∈ c.copied depth ref ↔ Relation.ReflTransGen c.Copies ref inner := by
  induction depth generalizing ref with
  | zero => exact copyable.elim
  | succ depth ih =>
    rw [copied, mem_cons, mem_flatMap, Relation.ReflTransGen.cases_head_iff, eq_comm]
    refine or_congr_right (exists_congr fun next => ?_)
    rw [mem_carried]
    exact and_congr_right fun copies => ih next (c.copyable_next copyable copies)

theorem stored_elements (elements : ObjectRef) :
    c.storedElements elements = (c.taggedElements elements).length + match c.heap.get? elements with
      | some (.fixedArray map values) => if map = Root.copyOnWriteArrayMap then 0 else (values.filter Option.isNone).length
      | some (.fixedDoubleArray values) => values.length
      | _ => 0 := by
  rw [storedElements, taggedElements]
  cases found : c.heap.get? elements with
  | none => rfl
  | some stored =>
    cases stored with
    | fixedArray store values =>
      dsimp only
      by_cases shared : store = Root.copyOnWriteArrayMap
      · simp [shared]
      · rw [if_neg shared, if_neg shared, if_neg shared]
        exact length_eq_reduceOption_length_add_filter_none
    | fixedDoubleArray values => exact (zero_add _).symm
    | _ => rfl

theorem slots_copyable (sized : MapInfo → Prop) (depth : Nat) (ref : ObjectRef) (copyable : c.Copyable sized depth ref) :
    c.slots ref = (c.held ref).length + c.spared ref := by
  cases depth with
  | zero => exact copyable.elim
  | succ depth =>
    obtain ⟨object, map, there, known, admits, _⟩ := copyable
    have fields : map.properties.countP (fun property => property.place ≠ .descriptor) =
        (map.properties.filterMap (fieldValue? object.fields)).length := by
      rw [length_filterMap_eq_countP]
      refine countP_congr fun property member => ?_
      rw [fieldValue?]
      cases place : property.place with
      | descriptor => simp
      | field representation index =>
        obtain ⟨_, value, found, _⟩ := admits.field property member representation index place
        simp [found]
    have elements := c.stored_elements object.elements
    simp only [slots, held, spared, there, known, length_append, fields, elements]
    omega

theorem copyable_reached (sized : MapInfo → Prop) {depth : Nat} {ref inner : ObjectRef} (copyable : c.Copyable sized depth ref)
    (reached : Relation.ReflTransGen c.Copies ref inner) : ∃ less, c.Copyable sized less inner := by
  induction reached with
  | refl => exact ⟨depth, copyable⟩
  | tail _ copies ih =>
    obtain ⟨less, below⟩ := ih
    cases less with
    | zero => exact below.elim
    | succ less => exact ⟨less, c.copyable_next below copies⟩

end CreationContext

theorem checked_literal_charges (c : CreationContext) (depth budget rest : Nat) (boilerplate : ObjectRef)
    (checked : c.checkLiteral depth boilerplate budget = .ok rest) :
    (∀ inner, inner ∈ c.copied depth boilerplate ↔ Relation.ReflTransGen c.Copies boilerplate inner) ∧
      ((c.copied depth boilerplate).map c.slots).sum + rest = budget + ((c.copied depth boilerplate).map c.spared).sum := by
  have copyable := c.check_literal_copyable (fun _ => True) checked fun _ _ _ _ _ _ => trivial
  have members := c.mem_copied _ depth boilerplate copyable
  refine ⟨members, ?_⟩
  have split : (c.copied depth boilerplate).map c.slots =
      (c.copied depth boilerplate).map fun inner => (c.held inner).length + c.spared inner := by
    refine map_congr_left fun inner member => ?_
    obtain ⟨less, below⟩ := c.copyable_reached _ copyable ((members inner).mp member)
    exact c.slots_copyable _ less inner below
  have charged := c.check_literal_charges depth boilerplate budget rest checked
  rw [split, sum_map_add]
  omega

theorem shared_element_charges : CreationContext.withSharedElement.checkLiteral 2 ⟨38⟩ 4 = .ok 0 ∧
    CreationContext.withSharedElement.copied 2 ⟨38⟩ = [⟨38⟩, ⟨34⟩, ⟨34⟩] ∧
    (∀ inner, inner ∈ CreationContext.withSharedElement.copied 2 ⟨38⟩ ↔
      Relation.ReflTransGen CreationContext.withSharedElement.Copies ⟨38⟩ inner) ∧
    ((CreationContext.withSharedElement.copied 2 ⟨38⟩).map CreationContext.withSharedElement.slots).sum + 0 =
      4 + ((CreationContext.withSharedElement.copied 2 ⟨38⟩).map CreationContext.withSharedElement.spared).sum := by
  have checked : CreationContext.withSharedElement.checkLiteral 2 ⟨38⟩ 4 = .ok 0 := by decide
  exact ⟨checked, by decide, checked_literal_charges .withSharedElement 2 4 0 ⟨38⟩ checked⟩

def CreationContext.withFreeElements : CreationContext :=
  { heap := ⟨Snapshot.initial.objects ++
      #[.map { instanceType := .jsArray, instanceSize := 32, elementsKind := .packedDouble },
        .fixedDoubleArray [some ⟨0x3FE0000000000000⟩, some ⟨0x3FF8000000000000⟩],
        .jsObject ⟨⟨32⟩, ⟨33⟩, 0, [], some (.small 2)⟩,
        .map { instanceType := .jsArray, instanceSize := 32, elementsKind := .holey },
        .fixedArray Root.fixedArrayMap [none, none],
        .jsObject ⟨⟨35⟩, ⟨36⟩, 0, [], some (.small 2)⟩]⟩
    config := {} }

theorem free_elements_exceed_budget : (CreationContext.withFreeElements.checkLiteral 1 ⟨34⟩ 0 = .ok 0 ∧
      ((CreationContext.withFreeElements.copied 1 ⟨34⟩).map CreationContext.withFreeElements.slots).sum = 2) ∧
    CreationContext.withFreeElements.checkLiteral 1 ⟨37⟩ 0 = .ok 0 ∧
      ((CreationContext.withFreeElements.copied 1 ⟨37⟩).map CreationContext.withFreeElements.slots).sum = 2 := by
  decide

end SeaOfNodes
