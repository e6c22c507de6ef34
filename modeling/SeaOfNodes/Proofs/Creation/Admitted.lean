import SeaOfNodes.Proofs.Creation.Literals

/-! Literals that pass their check are copied. -/

namespace SeaOfNodes

open List

section

variable {m : Type → Type} [Monad m] {α β : Type}

theorem fold_m_congr {items : List β} {first second : α → β → m α} (value : α)
    (agree : ∀ item ∈ items, ∀ value, first value item = second value item) : items.foldlM first value = items.foldlM second value := by
  induction items generalizing value with
  | nil => rfl
  | cons item rest ih =>
    obtain ⟨here, later⟩ := forall_mem_cons.mp agree
    rw [foldlM_cons, foldlM_cons, here value]
    exact bind_congr fun next => ih next later

theorem map_m_congr [LawfulMonad m] (items : List α) (first second : α → m β) (agree : ∀ item ∈ items, first item = second item) :
    items.mapM first = items.mapM second := by
  induction items with
  | nil => rfl
  | cons item rest ih =>
    obtain ⟨here, later⟩ := forall_mem_cons.mp agree
    rw [mapM_cons, mapM_cons, here, ih later]

end

namespace CreationContext

section

variable (c : CreationContext) (nested other : ObjectRef → Draft Operand) (generation : Generation)

theorem copy_field_congr (representation : FieldRepresentation) (value : TaggedValue)
    (agree : ∀ inner, c.nestedLiteral? value = some inner → nested inner = other inner) :
    c.copyField nested generation representation value = c.copyField other generation representation value := by
  rw [copyField, copyField]
  cases found : c.nestedLiteral? value with
  | some inner => exact agree inner found
  | none => rfl

theorem copy_element_congr (value : Option TaggedValue)
    (agree : ∀ held inner, value = some held → c.nestedLiteral? held = some inner → nested inner = other inner) :
    c.copyElement nested value = c.copyElement other value := by
  cases value with
  | none => rfl
  | some held =>
    rw [copyElement, copyElement]
    cases found : c.nestedLiteral? held with
    | some inner => exact agree held inner rfl found
    | none => rfl

variable (object : PlainObject) (map : MapInfo) (agree : ∀ inner, c.Carries object map inner → nested inner = other inner)

include agree

theorem copy_fields_congr : c.copyFields nested generation map object.fields = c.copyFields other generation map object.fields := by
  refine fold_m_congr _ fun property member copied => ?_
  cases place : property.place with
  | descriptor => rfl
  | field representation index =>
    dsimp only
    cases held : object.fields[index.toNat]? with
    | none => rfl
    | some value =>
      rw [Draft.ofOption, pure_bind, pure_bind, c.copy_field_congr nested other generation representation value]
      exact fun inner isNested => agree inner ⟨value, isNested, .inl ⟨property, member, representation, index, place, held⟩⟩

theorem copy_elements_congr :
    c.copyElements nested generation map object.elements = c.copyElements other generation map object.elements := by
  rw [copyElements, copyElements]
  cases found : c.heap.get? object.elements with
  | none => rfl
  | some stored =>
    cases stored with
    | fixedArray store values =>
      dsimp only
      by_cases shared : values = [] ∨ store = Root.copyOnWriteArrayMap
      · rw [if_pos (by simpa using shared), if_pos (by simpa using shared)]
      · rw [if_neg (by simpa using shared), if_neg (by simpa using shared)]
        refine bind_congr fun _ => congrArg (· >>= _) (map_m_congr values _ _ fun value member => ?_)
        refine c.copy_element_congr nested other value fun held inner same isNested => ?_
        exact agree inner ⟨held, isNested, .inr ⟨store, values, found, (not_or.mp shared).2, same ▸ member⟩⟩
    | _ => rfl

theorem copy_object_congr {boilerplate : ObjectRef} (there : c.heap.plainObject? boilerplate = some object)
    (known : c.heap.map? object.map = some map) :
    c.copyObject nested generation boilerplate = c.copyObject other generation boilerplate := by
  rw [copyObject, copyObject, there, Draft.ofOption, pure_bind, pure_bind, known, Draft.ofOption, pure_bind, pure_bind,
    c.copy_fields_congr nested other generation object map agree, c.copy_elements_congr nested other generation object map agree]

end

variable (c : CreationContext) (sized : MapInfo → Prop)

-- The bound on the depth only guards the recursion: a copy that may be made never comes to it.
theorem copy_literal_deeper (generation : Generation) (depth more : Nat) (boilerplate : ObjectRef)
    (copyable : c.Copyable sized depth boilerplate) :
    c.copyLiteral generation (depth + more) boilerplate = c.copyLiteral generation depth boilerplate := by
  induction depth generalizing boilerplate with
  | zero => exact copyable.elim
  | succ depth ih =>
    obtain ⟨object, map, there, known, admits, _⟩ := copyable
    rw [Nat.add_right_comm]
    refine c.copy_object_congr _ _ generation object map (fun inner carries => ?_) there known
    rw [ih inner (admits.carried inner carries)]

theorem copyable_nesting (depth : Nat) (boilerplate : ObjectRef) (copyable : c.Copyable sized depth boilerplate)
    (nested : List ObjectRef) (chain : (boilerplate :: nested).IsChain c.Copies) : nested.length < depth := by
  induction depth generalizing boilerplate nested with
  | zero => exact copyable.elim
  | succ depth ih =>
    cases nested with
    | nil => exact Nat.succ_pos depth
    | cons inner deeper =>
      rw [isChain_cons_cons] at chain
      have below := c.copyable_next copyable chain.1
      exact Nat.succ_lt_succ (ih inner below deeper chain.2)

end CreationContext

theorem carry_out_completes (plan : Plan) (limit : UInt32) (s : Workspace) (tolerant : s.journal.mode ≠ .validating)
    (actions : ∀ place (action : Action), plan.actions[place]? = some action → action.Drafted True place)
    (last : plan.last.Drafted True plan.actions.length) : ∃ copy t, plan.carryOut limit s = .ok copy t := by
  have drafted : ∀ place (action : Action), (plan.actions ++ [.region plan.last])[place]? = some action →
      action.Drafted True (0 + place) := by
    intro place action listed
    rw [zero_add]
    by_cases early : place < plan.actions.length
    · rw [getElem?_append_left early] at listed
      exact actions place action listed
    · have inside := (List.getElem?_eq_some_iff.mp listed).1
      rw [length_append, length_singleton] at inside
      obtain rfl : place = plan.actions.length := by omega
      rw [getElem?_concat_length] at listed
      cases listed
      exact last
  obtain ⟨final, t, run, _⟩ := ends_total (ends_perform_all plan limit _ { effect := plan.effect } (.inr tolerant)
    fun place action listed => action_drafted_feasible (drafted place action listed))
  exact ⟨final.effect, t, carry_out_ok run⟩

def CreationContext.withTightObjects : CreationContext :=
  { heap := ⟨Snapshot.initial.objects ++
      #[.map { instanceType := .jsObject, instanceSize := 8, inObjectProperties := 1, properties := [⟨"a", .field .double 0⟩] },
        .jsObject ⟨⟨32⟩, Root.emptyFixedArray, 0, [.small 7], none⟩,
        .map { instanceType := .jsObject, instanceSize := 8, inObjectProperties := 1, properties := [⟨"b", .field .tagged 0⟩] },
        .jsObject ⟨⟨34⟩, Root.emptyFixedArray, 0, [.object ⟨33⟩], none⟩]⟩
    config := { maxObjectSize := 8 } }

end SeaOfNodes
