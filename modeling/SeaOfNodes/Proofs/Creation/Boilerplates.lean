import SeaOfNodes.Creation.Literal
import SeaOfNodes.Proofs.Outcome

/-! Boilerplates that pass their check: all that is copied along with one is there, and fits. -/

namespace SeaOfNodes

def MapInfo.Fits (map : MapInfo) (header : Nat) : Prop :=
  map.instanceSize.toNat = header + 8 * map.inObjectProperties.toNat

instance (map : MapInfo) (header : Nat) : Decidable (map.Fits header) := inferInstanceAs (Decidable (_ = _))

def MapInfo.WellSized (map : MapInfo) : Prop :=
  map.instanceType = .jsObject ∧ map.Fits 24 ∨ map.instanceType = .jsArray ∧ map.Fits 32

instance (map : MapInfo) : Decidable map.WellSized := inferInstanceAs (Decidable (_ ∨ _))

def MapInfo.Roomy (map : MapInfo) : Prop := 8 * map.inObjectProperties.toNat ≤ map.instanceSize.toNat

instance (map : MapInfo) : Decidable map.Roomy := inferInstanceAs (Decidable (_ ≤ _))

namespace CreationContext

variable {map : MapInfo} {object : PlainObject}

def Carries (c : CreationContext) (object : PlainObject) (map : MapInfo) (inner : ObjectRef) : Prop :=
  ∃ value, c.nestedLiteral? value = some inner ∧
    ((∃ property ∈ map.properties, ∃ representation index, property.place = .field representation index ∧
        object.fields[index.toNat]? = some value) ∨
      ∃ store values, c.heap.get? object.elements = some (.fixedArray store values) ∧ store ≠ Root.copyOnWriteArrayMap ∧
        some value ∈ values)

def Copies (c : CreationContext) (outer inner : ObjectRef) : Prop :=
  ∃ object map, c.heap.plainObject? outer = some object ∧ c.heap.map? object.map = some map ∧ c.Carries object map inner

def Mapped (c : CreationContext) (sized : MapInfo → Prop) (boilerplate : ObjectRef) : Prop :=
  ∀ inner object map, Relation.ReflTransGen c.Copies boilerplate inner → c.heap.plainObject? inner = some object →
    c.heap.map? object.map = some map → sized map

def WellMapped (c : CreationContext) (boilerplate : ObjectRef) : Prop :=
  ∀ inner object map, Relation.ReflTransGen c.Copies boilerplate inner → c.heap.plainObject? inner = some object →
    c.heap.map? object.map = some map → map.WellSized

-- What the check of an object finds, where `below` holds of all objects that it carries.
structure Admits (c : CreationContext) (below : ObjectRef → Prop) (object : PlainObject) (map : MapInfo) : Prop where
  fits : c.fits map.instanceSize = true
  elements : (∃ store values, c.heap.get? object.elements = some (.fixedArray store values) ∧
      (values = [] ∨ store = Root.copyOnWriteArrayMap ∨ c.fitsElements values.length = true)) ∨
    ∃ values, c.heap.get? object.elements = some (.fixedDoubleArray values) ∧ c.fitsElements values.length = true
  field : ∀ property ∈ map.properties, ∀ representation index, property.place = .field representation index →
    index < map.inObjectProperties ∧ ∃ value, object.fields[index.toNat]? = some value ∧
      (representation = .double → c.nestedLiteral? value = none → (c.doubleField? value).isSome)
  carried : ∀ inner, c.Carries object map inner → below inner

def Copyable (c : CreationContext) (sized : MapInfo → Prop) : Nat → ObjectRef → Prop
  | 0, _ => False
  | depth + 1, boilerplate => ∃ object map, c.heap.plainObject? boilerplate = some object ∧
      c.heap.map? object.map = some map ∧ c.Admits (c.Copyable sized depth) object map ∧ sized map

section

variable {budget rest : Nat} (c : CreationContext) (nested : ObjectRef → Nat → Except LiteralDecline Nat)

theorem fold_budget {α : Type} {items : List α} {step : Nat → α → Except LiteralDecline Nat}
    (run : items.foldlM step budget = .ok rest) : ∀ item ∈ items, ∃ before after, step before item = .ok after := by
  induction items generalizing budget with
  | nil => simp
  | cons item others ih =>
    rw [List.foldlM_cons, bind_eq_ok] at run
    obtain ⟨middle, first, later⟩ := run
    exact List.forall_mem_cons.mpr ⟨⟨budget, middle, first⟩, ih later⟩

theorem check_nested_ok {value : TaggedValue} (run : c.checkNested nested value budget = .ok rest) (inner : ObjectRef)
    (found : c.nestedLiteral? value = some inner) : ∃ before after, nested inner before = .ok after := by
  rw [checkNested, found] at run
  exact ⟨budget, rest, run⟩

theorem check_elements_ok {elements : ObjectRef} (run : c.checkElements nested elements budget = .ok rest) :
    (∃ store values, c.heap.get? elements = some (.fixedArray store values) ∧
      (values = [] ∨ store = Root.copyOnWriteArrayMap ∨ c.fitsElements values.length ∧
        ∀ value inner, some value ∈ values → c.nestedLiteral? value = some inner → ∃ before after, nested inner before = .ok after)) ∨
    ∃ values, c.heap.get? elements = some (.fixedDoubleArray values) ∧ c.fitsElements values.length := by
  rw [checkElements] at run
  split at run
  · rename_i store values found
    refine .inl ⟨store, values, found, ?_⟩
    split at run
    · rename_i shared
      rcases Bool.or_eq_true_iff.mp shared with empty | same
      · exact .inl (List.isEmpty_iff.mp empty)
      · exact .inr (.inl (by simpa using same))
    · split at run
      · rename_i fits
        refine .inr (.inr ⟨fits, fun value inner listed isNested => ?_⟩)
        obtain ⟨before, after, step⟩ := fold_budget run value (List.reduceOption_mem_iff.mpr listed)
        obtain ⟨left, _, checked⟩ := bind_eq_ok.mp step
        exact c.check_nested_ok nested checked inner isNested
      · cases run
  · rename_i values found
    split at run
    · exact .inr ⟨values, found, ‹_›⟩
    · cases run
  · cases run

theorem check_field_ok {fields : List TaggedValue} {property : Property}
    (run : c.checkField nested map fields budget property = .ok rest) (representation : FieldRepresentation) (index : UInt32)
    (place : property.place = .field representation index) :
    index < map.inObjectProperties ∧ ∃ value, fields[index.toNat]? = some value ∧
      (representation = .double → c.nestedLiteral? value = none → (c.doubleField? value).isSome) ∧
      ∀ inner, c.nestedLiteral? value = some inner → ∃ before after, nested inner before = .ok after := by
  rw [checkField, place] at run
  obtain ⟨left, _, run⟩ := bind_eq_ok.mp run
  dsimp only at run
  split at run
  · cases run
  rename_i inside
  refine ⟨UInt32.not_le.mp inside, ?_⟩
  split at run
  · cases run
  rename_i value found
  split at run
  · cases run
  · rename_i boxed
    refine ⟨value, found, ?_, c.check_nested_ok nested run⟩
    rintro rfl plain
    rw [plain] at boxed
    exact Option.isSome_iff_ne_none.mpr (by simpa using boxed)

theorem checks_admit {left : Nat} (fits : c.fits map.instanceSize)
    (stored : c.checkElements nested object.elements budget = .ok left)
    (run : map.properties.foldlM (c.checkField nested map object.fields) left = .ok rest) :
    c.Admits (fun inner => ∃ before after, nested inner before = .ok after) object map := by
  have elements := c.check_elements_ok nested stored
  have each := fun property member representation index place =>
    let ⟨before, after, step⟩ := fold_budget run property member
    c.check_field_ok nested step representation index place
  refine ⟨fits, ?_, ?_, ?_⟩
  · rcases elements with ⟨store, values, found, fine⟩ | doubles
    · exact .inl ⟨store, values, found, fine.imp_right (Or.imp_right And.left)⟩
    · exact .inr doubles
  · intro property member representation index place
    obtain ⟨inside, value, found, number, _⟩ := each property member representation index place
    exact ⟨inside, value, found, number⟩
  · rintro inner ⟨value, isNested, ⟨property, member, representation, index, place, held⟩ | ⟨store, values, found, own, held⟩⟩
    · obtain ⟨_, other, again, _, below⟩ := each property member representation index place
      cases held.symm.trans again
      exact below inner isNested
    · rcases elements with ⟨_, _, again, fine⟩ | ⟨_, again, _⟩
      · cases found.symm.trans again
        rcases fine with rfl | shared | ⟨_, below⟩
        · cases held
        · exact absurd shared own
        · exact below value inner held isNested
      · cases found.symm.trans again

theorem check_object_ok {boilerplate : ObjectRef} (run : c.checkObject nested boilerplate budget = .ok rest) :
    ∃ object map, c.heap.plainObject? boilerplate = some object ∧ c.heap.map? object.map = some map ∧
      c.Admits (fun inner => ∃ before after, nested inner before = .ok after) object map := by
  rw [checkObject] at run
  split at run
  · cases run
  rename_i object there
  split at run
  · cases run
  rename_i map mapped
  dsimp only at run
  split at run
  · cases run
  · split at run
    · rename_i fits
      obtain ⟨left, stored, run⟩ := bind_eq_ok.mp run
      split at run
      · cases run
      · exact ⟨object, map, there, mapped, c.checks_admit nested fits stored run⟩
    · cases run

end

theorem admits_mono (c : CreationContext) {below : ObjectRef → Prop} (other : ObjectRef → Prop)
    (holds : c.Admits below object map) (weaker : ∀ inner, c.Carries object map inner → below inner → other inner) :
    c.Admits other object map :=
  { holds with carried := fun inner carries => weaker inner carries (holds.carried inner carries) }

theorem copyable_next (c : CreationContext) {sized : MapInfo → Prop} {depth : Nat} {outer inner : ObjectRef}
    (copyable : c.Copyable sized (depth + 1) outer) (copies : c.Copies outer inner) : c.Copyable sized depth inner := by
  obtain ⟨object, map, there, known, admits, _⟩ := copyable
  obtain ⟨_, _, again, listed, carries⟩ := copies
  cases there.symm.trans again
  cases known.symm.trans listed
  exact admits.carried inner carries

theorem check_literal_copyable (c : CreationContext) (sized : MapInfo → Prop) {depth : Nat} {boilerplate : ObjectRef}
    {budget rest : Nat} (run : c.checkLiteral depth boilerplate budget = .ok rest) (mapped : c.Mapped sized boilerplate) :
    c.Copyable sized depth boilerplate := by
  induction depth generalizing boilerplate budget rest with
  | zero => cases run
  | succ depth ih =>
    obtain ⟨object, map, there, known, admits⟩ := c.check_object_ok _ run
    refine ⟨object, map, there, known, c.admits_mono _ admits ?_, mapped boilerplate object map .refl there known⟩
    rintro inner carries ⟨before, after, checked⟩
    refine ih checked fun deeper other otherMap reached => ?_
    exact mapped deeper other otherMap (.head ⟨object, map, there, known, carries⟩ reached)

end CreationContext

end SeaOfNodes
