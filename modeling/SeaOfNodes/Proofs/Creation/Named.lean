import SeaOfNodes.Proofs.Creation.Words
import SeaOfNodes.Proofs.Lowering.Plans

/-! Regions that only name live nodes. -/

namespace SeaOfNodes

open List

namespace Layout

theorem fixed_array_size_panics (length : UInt32) : Yields (fixedArraySize length) fun _ => True :=
  yields_bind (fun _ => True) (yields_checked_mul fun _ => trivial) fun _ _ =>
    yields_checked_add fun _ _ => trivial

theorem fixed_double_array_size_panics (length : UInt32) : Yields (fixedDoubleArraySize length) fun _ => True :=
  yields_bind (fun _ => True) (yields_checked_mul fun _ => trivial) fun _ _ =>
    yields_checked_add fun _ _ => trivial

theorem in_object_offset_panics {size count index : UInt32} : Yields (inObjectOffset size count index) fun _ => True :=
  yields_bind (fun _ => True) (yields_checked_sub fun _ => trivial) fun _ _ =>
    yields_bind (fun _ => True) (yields_checked_mul fun _ => trivial) fun _ _ =>
      yields_checked_sub fun _ => trivial

end Layout

section

variable {value : Constant} {region : Region} {graph : Graph}

@[simp] theorem operand_heap_sound {object : ObjectRef} : (Operand.heap object).Sound graph := trivial

@[simp] theorem operand_number_sound {value : Int} : (Operand.number value).Sound graph := trivial

@[simp] theorem operand_constant_sound : (Operand.constant value).Sound graph := trivial

@[simp] theorem operand_made_sound {action : Nat} : (Operand.made action).Sound graph := trivial

@[simp] theorem operand_node_sound {id : NodeId} : (Operand.node id).Sound graph ↔ graph.HasLive id := Iff.rfl

@[simp] theorem store_field_sound {access : FieldAccess} {value : Operand} :
    (Store.field access value).Sound graph ↔ value.Sound graph := Iff.rfl

@[simp] theorem store_element_sound {access : ElementAccess} {index : UInt32} {value : Operand} :
    (Store.element access index value).Sound graph ↔ value.Sound graph := Iff.rfl

@[simp] theorem action_constant_sound : (Action.constant value).Sound graph := trivial

theorem store_context_slot_sound (index : Nat) (value : Operand) (fine : value.Sound graph) :
    (Store.contextSlot index value).Sound graph := by
  have placed : Yields (FieldAccess.contextSlot (UInt32.ofNat index)) fun _ => True :=
    yields_bind _ (Layout.fixed_array_size_panics _) fun _ _ => yields_pure trivial
  rw [Store.contextSlot]
  split
  · exact fine
  · rename_i fault failed
    rw [failed] at placed
    exact placed

theorem in_object_panics {map : MapInfo} {index : UInt32} {fault : Fault} (failed : FieldAccess.inObject map index = .error fault) :
    fault.Panic := by
  have placed : Yields (FieldAccess.inObject map index) fun _ => True :=
    yields_bind _ Layout.in_object_offset_panics fun _ _ => yields_pure trivial
  rwa [failed] at placed

def Fill.Sound (graph : Graph) : Fill → Prop
  | .nothing => True
  | .inObject _ value | .context _ value => value.Sound graph

theorem region_sound (stores : ∀ store ∈ region.stores, store.Sound graph) (fill : region.fill.Sound graph) :
    region.Sound graph := by
  intro store member
  rcases mem_append.mp member with listed | filled
  · exact stores store listed
  cases kind : region.fill with
  | nothing => simp [kind, Fill.stores] at filled
  | inObject map value =>
    rw [kind] at filled fill
    exact all_in_object (fun _ _ _ => fill) (fun _ _ _ failed => in_object_panics failed) store filled
  | context length value =>
    rw [kind] at filled fill
    obtain ⟨index, _, rfl⟩ := mem_map.mp filled
    exact store_context_slot_sound index value fill

theorem object_header_sound (map : ObjectRef) {elements : Operand} (fine : elements.Sound graph) :
    ∀ store ∈ Region.objectHeader map elements, store.Sound graph := by
  simpa [Region.objectHeader] using fine

section

variable {length : UInt32} {map : ObjectRef} {generation : Generation} {stores : List Store} {region : Region}

theorem fixed_array_sound (made : Region.fixedArray length map generation stores = .ok region)
    (fine : ∀ store ∈ stores, store.Sound graph) : region.Sound graph ∧ region.fill = .nothing := by
  obtain ⟨size, _, same⟩ := bind_eq_ok.mp made
  cases same
  exact ⟨region_sound (by simpa [Region.arrayHeader] using fine) trivial, rfl⟩

theorem double_array_sound (made : Region.doubleArray length generation stores = .ok region)
    (fine : ∀ store ∈ stores, store.Sound graph) : region.Sound graph := by
  obtain ⟨size, _, same⟩ := bind_eq_ok.mp made
  cases same
  exact region_sound (by simpa [Region.arrayHeader] using fine) trivial

theorem fixed_array_panics : Yields (Region.fixedArray length map generation stores) fun _ => True :=
  yields_then (Layout.fixed_array_size_panics length) fun _ _ => yields_pure trivial

end

theorem numbered_stores {values : List Operand} (store : Nat → Operand → Store) {good : Operand → Prop} (kept : Store → Prop)
    (fine : ∀ value ∈ values, good value) (stored : ∀ index value, good value → kept (store index value)) :
    ∀ made ∈ values.zipIdx.map fun entry => store entry.2 entry.1, kept made := by
  exact forall_mem_map.mpr fun entry listed => stored entry.2 entry.1 (fine entry.1 (fst_mem_of_mem_zipIdx listed))

end

end SeaOfNodes
