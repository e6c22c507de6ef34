import SeaOfNodes.Proofs.Creation.Words

/-! The stores of each kind of object write all of its words. -/

namespace SeaOfNodes

open List Store

section

variable {region : Region} {map : ObjectRef} {elements : Operand} {length : UInt32} {values : List Operand} {stores : List Store}
  {shaped : Prop}

-- The header of an object is the first three words.
theorem object_tidy (fields : List Store) (count : Nat) (size : shaped → region.size.toNat = 24 + 8 * count)
    (all : region.allStores = Region.objectHeader map elements ++ fields) (regular : ∀ store ∈ fields, store.Regular)
    (places : shaped → Placed fields → (offsets fields).Perm (range' 24 count 8)) : region.Tidy shaped where
  first := by
    refine ⟨.heap map, .field .properties (.heap Root.emptyFixedArray) :: .field .elements elements :: fields, all, ?_⟩
    exact forall_mem_cons.mpr ⟨tagged_regular, forall_mem_cons.mpr ⟨pointer_regular, regular⟩⟩
  covers holds placed := by
    rw [all, placed_append] at placed
    rw [all, offsets_append, size holds]
    refine ⟨by omega, ?_⟩
    rw [Layout.words, show (24 + 8 * count) / 8 = count + 1 + 1 + 1 by omega, range'_succ, range'_succ, range'_succ]
    exact (places holds placed.2).append_left [0, 8, 16]

-- Fields of their own come between the header and the in-object slots.
theorem slotted_tidy (map : MapInfo) (initial : ObjectRef) (fields : List Store) {value : UInt32 → Operand} (count : Nat)
    (size : region.size = map.instanceSize)
    (all : region.allStores = Region.objectHeader initial elements ++ (fields ++ Region.allInObject map value))
    (regular : ∀ store ∈ fields, store.Regular) (places : (offsets fields).Perm (range' 24 count 8))
    (fits : shaped → map.instanceSize.toNat = 24 + 8 * count + 8 * map.inObjectProperties.toNat) : region.Tidy shaped := by
  refine object_tidy _ (count + map.inObjectProperties.toNat) (fun holds => ?_) all
    (forall_mem_append.mpr ⟨regular, in_object_regular⟩) fun holds _ => ?_
  · rw [size, fits holds]
    omega
  · rw [offsets_append, Region.allInObject, in_object_offsets value (fits holds) 0 (zero_add _), ← range'_append]
    exact places.append_right _

theorem context_stores (values : List Operand) (small : values.length ≤ UInt32.size) :
    (∀ store ∈ values.zipIdx.map fun (value, index) => contextSlot index value, store.Regular) ∧
      (Placed (values.zipIdx.map fun (value, index) => contextSlot index value) →
        offsets (values.zipIdx.map fun (value, index) => contextSlot index value) = range' 16 values.length 8) := by
  have inside : ∀ entry ∈ values.zipIdx, entry.2 < UInt32.size := by
    rintro ⟨value, index⟩ member
    exact lt_of_lt_of_le (List.getElem?_eq_some_iff.mp (mem_zipIdx_iff_getElem?.mp member)).1 small
  refine ⟨?_, fun placed => zip_idx_offsets fun entry member => ?_⟩
  · exact forall_mem_map.mpr fun entry listed => (context_slot_store entry.1 (inside entry listed)).1
  · exact (context_slot_store entry.1 (inside entry member)).2 (placed _ (mem_map.mpr ⟨entry, member, rfl⟩))

theorem context_region_tidy (length : UInt32) (map : ObjectRef) (closure previous extension : Operand) (slots : List Operand)
    (region : Region) (counted : length.toNat = 4 + slots.length)
    (made : CreationContext.contextRegion length map closure previous extension slots = .ok region) :
    region.Tidy shaped ∧ region.generation = .young := by
  have total : ([closure, previous, extension, .heap NativeContext.object] ++ slots).length = length.toNat := by
    rw [length_append, counted]
    rfl
  obtain ⟨regular, places⟩ := context_stores _ (le_of_lt (total ▸ length.toNat_lt_size))
  exact fixed_array_tidy made regular fun placed => total ▸ places placed

theorem undefined_context_tidy {closure previous extension : Operand} (enough : 4 ≤ length.toNat)
    (made : CreationContext.undefinedContext length map closure previous extension = .ok region) :
    region.Tidy shaped ∧ region.generation = .young := by
  obtain ⟨bare, built, same⟩ := bind_eq_ok.mp made
  cases same
  obtain ⟨size, fits, same⟩ := bind_eq_ok.mp built
  cases same
  obtain ⟨regular, places⟩ := context_stores [closure, previous, extension, .heap NativeContext.object] (show 4 ≤ UInt32.size by decide)
  obtain ⟨fillRegular, fillPlaces⟩ := context_fill_stores length (.heap Root.undefined)
  refine ⟨array_tidy (Layout.fixed_array_size_eq_ok.mp fits)
    (append_assoc _ _ _) (forall_mem_append.mpr ⟨regular, fillRegular⟩) fun placed => ?_, rfl⟩
  rw [placed_append] at placed
  calc
    _ = range' 16 4 8 ++ range' 48 (length.toNat - 4) 8 := by
      rw [offsets_append, fillPlaces placed.2]
      exact congrArg (· ++ _) (places placed.1)
    _ = range' 16 length.toNat 8 := by
      rw [range'_append, Nat.add_sub_cancel' enough]

theorem slot_stores_ok {first : Nat} (small : first + values.length ≤ UInt32.size)
    (run : CreationContext.slotStores first values = .ok stores) :
    (∀ store ∈ stores, store.Regular) ∧ offsets stores = range' (16 + 8 * first) values.length 8 := by
  induction values generalizing first stores with
  | nil =>
    cases run
    exact ⟨by simp, rfl⟩
  | cons value rest ih =>
    rw [CreationContext.slotStores, zipIdx_cons, mapM_cons] at run
    obtain ⟨store, here, run⟩ := bind_eq_ok.mp run
    obtain ⟨further, later, same⟩ := bind_eq_ok.mp run
    cases same
    obtain ⟨access, slot, same⟩ := bind_eq_ok.mp here
    cases same
    rw [length_cons] at small
    obtain ⟨place, regular⟩ := fixed_array_slot_ok slot
    obtain ⟨all, places⟩ := ih (by omega) later
    refine ⟨forall_mem_cons.mpr ⟨regular value, all⟩, ?_⟩
    rw [offsets_field, places, place, UInt32.toNat_ofNat_of_lt' (by omega), length_cons, range'_succ]
    rfl

theorem slots_tidy (counted : length.toNat = values.length) (listed : CreationContext.slotStores 0 values = .ok stores)
    (made : Region.fixedArray length map .young stores = .ok region) : region.Tidy shaped ∧ region.generation = .young := by
  obtain ⟨regular, places⟩ := slot_stores_ok (by rw [zero_add, ← counted]; exact le_of_lt length.toNat_lt_size) listed
  exact fixed_array_tidy made regular fun _ => by rw [places, counted]

end

end SeaOfNodes
