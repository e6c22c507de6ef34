import SeaOfNodes.Creation.Inline
import SeaOfNodes.Proofs.Outcome

/-! Which words of an object its stores write. -/

namespace SeaOfNodes

open List

variable {size : UInt32} {values : List Operand} {start : Nat} {region : Region} {count index : UInt32} {header length : Nat}

namespace Layout

def words (size : Nat) : List Nat := List.range' 0 (size / 8) 8

theorem fixed_array_size_eq_ok {length : UInt32} : fixedArraySize length = .ok size ↔ size.toNat = 16 + 8 * length.toNat := by
  have bound := size.toNat_lt_size
  simp only [fixedArraySize, bind_eq_ok, checkedMul_eq_ok, checkedAdd_eq_ok]
  constructor
  · rintro ⟨bytes, product, sum⟩
    rw [sum, product]
    exact congrArg (16 + ·) (mul_comm _ _)
  · intro total
    have fits : 8 * length.toNat < UInt32.size := by omega
    refine ⟨UInt32.ofNat (8 * length.toNat), ?_, ?_⟩
    · rw [UInt32.toNat_ofNat_of_lt' fits, mul_comm]
      rfl
    · rw [UInt32.toNat_ofNat_of_lt' fits, total]
      rfl

theorem in_object_offset_eq_ok {offset : UInt32} (shaped : size.toNat = header + 8 * count.toNat)
    (inside : index ≤ count) : inObjectOffset size count index = .ok offset ↔ offset.toNat = header + 8 * index.toNat := by
  have bound := size.toNat_lt_size
  have below := UInt32.le_iff_toNat_le.mp inside
  simp only [inObjectOffset, bind_eq_ok, checkedMul_eq_ok, checkedSub_eq_ok]
  have slot : slotSize.toNat = 8 := rfl
  constructor
  · rintro ⟨left, difference, bytes, product, rest⟩
    rw [slot] at product
    omega
  intro place
  have fits : 8 * (count.toNat - index.toNat) < UInt32.size := by omega
  have few : count.toNat - index.toNat < UInt32.size := by omega
  refine ⟨UInt32.ofNat (count.toNat - index.toNat), ?_, UInt32.ofNat (8 * (count.toNat - index.toNat)), ?_, ?_⟩
  · rw [UInt32.toNat_ofNat_of_lt' few]
    omega
  · rw [UInt32.toNat_ofNat_of_lt' fits, UInt32.toNat_ofNat_of_lt' few, slot, mul_comm]
  · rw [UInt32.toNat_ofNat_of_lt' fits]
    omega

end Layout

theorem CreationContext.fits_elements_size (c : CreationContext) (fits : c.fitsElements length) :
    length < UInt32.size ∧ ∃ size, Layout.fixedArraySize (UInt32.ofNat length) = .ok size ∧ size.toNat = 16 + 8 * length ∧
      size ≤ c.config.maxObjectSize := by
  have bound := c.config.maxObjectSize.toNat_lt_size
  have slot : Layout.slotSize.toNat = 8 := rfl
  have header : Layout.fixedArrayHeader.toNat = 16 := rfl
  simp only [fitsElements, decide_eq_true_eq, slot, header] at fits
  have small : length < UInt32.size := by omega
  have total : (UInt32.ofNat (16 + 8 * length)).toNat = 16 + 8 * length :=
    UInt32.toNat_ofNat_of_lt' (show 16 + 8 * length < UInt32.size by omega)
  refine ⟨small, _, Layout.fixed_array_size_eq_ok.mpr ?_, total, UInt32.le_iff_toNat_le.mpr ?_⟩
  · rw [total, UInt32.toNat_ofNat_of_lt' small]
  · omega

namespace Store

def offset? : Store → Option Nat
  | .field access _ => some access.offset.toNat
  | .element access index _ => some (access.header.toNat + 8 * index.toNat)
  | .misplaced _ => none

def Wide : Store → Prop
  | .field access _ | .element access _ _ => access.machineType.representation.bytes = 8
  | .misplaced _ => True

def Regular : Store → Prop
  | .field access _ | .element access _ _ => access.machineType.representation.bytes = 8 ∧ access.barrier ≠ .map ∧
      (access.barrier = .none ↔ access.machineType.representation.canBeTaggedPointer = false)
  | .misplaced _ => True

theorem regular_wide (store : Store) (regular : store.Regular) : store.Wide := by
  cases store with
  | field access value | element access index value => exact regular.1
  | misplaced fault => trivial

def offsets (stores : List Store) : List Nat := stores.filterMap offset?

def Placed (stores : List Store) : Prop := ∀ store ∈ stores, store.offset?.isSome

@[simp] theorem offsets_field (access : FieldAccess) (value : Operand) (rest : List Store) :
    offsets (.field access value :: rest) = access.offset.toNat :: offsets rest := rfl

@[simp] theorem offsets_append (first second : List Store) : offsets (first ++ second) = offsets first ++ offsets second :=
  filterMap_append

@[simp] theorem placed_append (first second : List Store) : Placed (first ++ second) ↔ Placed first ∧ Placed second :=
  forall_mem_append

end Store

section

variable {offset : UInt32} {kinds : Kinds} {name : String} {value : Operand}

@[simp] theorem tagged_regular : (Store.field (.tagged offset kinds name) value).Regular := by
  refine ⟨rfl, nofun, ?_⟩
  simp [FieldAccess.tagged, MachineType.anyTagged, Representation.canBeTaggedPointer]

@[simp] theorem pointer_regular : (Store.field (.pointer offset kinds name) value).Regular := by
  refine ⟨rfl, nofun, ?_⟩
  simp [FieldAccess.pointer, MachineType.taggedPointer, Representation.canBeTaggedPointer]

@[simp] theorem small_regular : (Store.field (.small offset name) value).Regular := by
  refine ⟨rfl, nofun, ?_⟩
  simp [FieldAccess.small, MachineType.taggedSigned, Representation.canBeTaggedPointer]

@[simp] theorem heap_number_value_regular : (Store.field .heapNumberValue value).Regular := by
  refine ⟨rfl, nofun, ?_⟩
  simp [FieldAccess.heapNumberValue, MachineType.float64, Representation.canBeTaggedPointer]

@[simp] theorem array_length_regular (kind : ElementsKind) (value : Operand) :
    (Store.field (.arrayLength kind) value).Regular := by
  rw [FieldAccess.arrayLength]
  split
  · exact small_regular
  · exact tagged_regular

theorem array_length_offset (kind : ElementsKind) : (FieldAccess.arrayLength kind).offset = 24 := by
  rw [FieldAccess.arrayLength]
  split <;> rfl

theorem fixed_array_regular (kind : ElementsKind) (index : UInt32) (value : Operand) :
    (Store.element (.fixedArray kind) index value).Regular ∧ (ElementAccess.fixedArray kind).header = 16 := by
  rw [ElementAccess.fixedArray]
  split
  · refine ⟨⟨rfl, nofun, ?_⟩, rfl⟩
    simp [MachineType.taggedSigned, Representation.canBeTaggedPointer]
  · refine ⟨⟨rfl, nofun, ?_⟩, rfl⟩
    simp [MachineType.anyTagged, Representation.canBeTaggedPointer]

theorem elements_regular (kind : ElementsKind) (index : UInt32) (value : Operand) :
    (Store.element kind.access index value).Regular ∧ kind.access.header = 16 := by
  rw [ElementsKind.access]
  split
  · refine ⟨⟨rfl, nofun, ?_⟩, rfl⟩
    simp [ElementAccess.fixedDoubleArray, MachineType.float64, Representation.canBeTaggedPointer]
  · exact fixed_array_regular kind index value

theorem fixed_array_slot_ok {access : FieldAccess} (run : FieldAccess.fixedArraySlot index = .ok access) :
    access.offset.toNat = 16 + 8 * index.toNat ∧ ∀ value, (Store.field access value).Regular := by
  obtain ⟨offset, placed, same⟩ := bind_eq_ok.mp run
  cases same
  exact ⟨Layout.fixed_array_size_eq_ok.mp placed, fun value => tagged_regular⟩

theorem context_slot_store {index : Nat} (value : Operand) (small : index < UInt32.size) :
    (Store.contextSlot index value).Regular ∧
      ((Store.contextSlot index value).offset?.isSome → (Store.contextSlot index value).offset? = some (16 + 8 * index)) := by
  rw [Store.contextSlot]
  split
  · rename_i access run
    obtain ⟨offset, placed, same⟩ := bind_eq_ok.mp run
    cases same
    refine ⟨tagged_regular, fun _ => ?_⟩
    have place := Layout.fixed_array_size_eq_ok.mp placed
    rw [UInt32.toNat_ofNat_of_lt' small] at place
    exact congrArg some place
  · exact ⟨trivial, nofun⟩

end

section

variable {stores : List Store} {map : ObjectRef}

theorem zip_idx_offsets {store : Operand × Nat → Store}
    (places : ∀ entry ∈ values.zipIdx start, (store entry).offset? = some (16 + 8 * entry.2)) :
    Store.offsets ((values.zipIdx start).map store) = range' (16 + 8 * start) values.length 8 := by
  induction values generalizing start with
  | nil => rfl
  | cons value rest ih =>
    rw [zipIdx_cons] at places ⊢
    rw [map_cons, Store.offsets, filterMap_cons_some (places (value, start) mem_cons_self), ← Store.offsets,
      ih fun entry member => places entry (mem_cons_of_mem _ member), length_cons, range'_succ]
    rfl

theorem range_offsets (store : Nat → Store) {count : Nat}
    (places : ∀ index ∈ range' start count, (store index).offset? = some (16 + 8 * index)) :
    Store.offsets ((range' start count).map store) = range' (16 + 8 * start) count 8 := by
  induction count generalizing start with
  | zero => rfl
  | succ count ih =>
    rw [range'_succ] at places ⊢
    rw [map_cons, Store.offsets, filterMap_cons_some (places start mem_cons_self), ← Store.offsets,
      ih fun index member => places index (mem_cons_of_mem _ member), range'_succ]
    rfl

theorem index_succ {index count : UInt32} (inside : index.toNat < count.toNat) : (index + 1).toNat = index.toNat + 1 := by
  have small := count.toNat_lt_size
  rw [UInt32.toNat_add]
  exact Nat.mod_eq_of_lt (show index.toNat + 1 < UInt32.size by omega)

theorem in_object_access {map : MapInfo} (shaped : map.instanceSize.toNat = header + 8 * map.inObjectProperties.toNat)
    {index : UInt32} (inside : index.toNat < map.inObjectProperties.toNat) :
    ∃ access, FieldAccess.inObject map index = .ok access ∧ access.offset.toNat = header + 8 * index.toNat ∧
      ∀ value, (Store.field access value).Regular := by
  have small := map.instanceSize.toNat_lt_size
  have fits := UInt32.toNat_ofNat_of_lt' (show header + 8 * index.toNat < UInt32.size by omega)
  have offset := (Layout.in_object_offset_eq_ok shaped (UInt32.le_iff_toNat_le.mpr (by omega))).mpr fits
  exact ⟨_, bind_eq_ok.mpr ⟨_, offset, rfl⟩, fits, fun _ => tagged_regular⟩

theorem in_object_offsets {map : MapInfo} (value : UInt32 → Operand)
    (shaped : map.instanceSize.toNat = header + 8 * map.inObjectProperties.toNat) {slots : Nat} (index : UInt32)
    (inside : index.toNat + slots = map.inObjectProperties.toNat) :
    Store.offsets (Region.inObject map value slots index) = range' (header + 8 * index.toNat) slots 8 := by
  induction slots generalizing index with
  | zero => rfl
  | succ slots ih =>
    have next := index_succ (show index.toNat < map.inObjectProperties.toNat by omega)
    obtain ⟨access, found, offset, _⟩ := in_object_access shaped (show index.toNat < _ by omega)
    rw [Region.inObject, found]
    show access.offset.toNat :: Store.offsets (Region.inObject map value slots (index + 1)) = _
    rw [ih (index + 1) (by omega), next, offset, range'_succ]
    rfl

theorem all_in_object {map : MapInfo} {value : UInt32 → Operand} {holds : Store → Prop}
    (fields : ∀ index access, FieldAccess.inObject map index = .ok access → holds (.field access (value index)))
    (faults : ∀ index fault, index.toNat < map.inObjectProperties.toNat → FieldAccess.inObject map index = .error fault →
      holds (.misplaced fault)) : ∀ store ∈ Region.allInObject map value, holds store := by
  suffices each : ∀ slots index, index.toNat + slots = map.inObjectProperties.toNat →
      ∀ store ∈ Region.inObject map value slots index, holds store from each _ 0 (zero_add _)
  intro slots index inside
  fun_induction Region.inObject map value slots index with
  | case1 => simp
  | case2 slots index access found ih =>
    have next := index_succ (show index.toNat < map.inObjectProperties.toNat by omega)
    exact forall_mem_cons.mpr ⟨fields index access found, ih (by omega)⟩
  | case3 slots index fault failed => exact forall_mem_singleton.mpr (faults index fault (by omega) failed)

theorem in_object_regular {map : MapInfo} {value : UInt32 → Operand} :
    ∀ store ∈ Region.allInObject map value, store.Regular := by
  refine all_in_object (fun index access found => ?_) fun _ _ _ _ => trivial
  obtain ⟨offset, _, same⟩ := bind_eq_ok.mp found
  cases same
  exact tagged_regular

theorem context_fill_stores (length : UInt32) (value : Operand) :
    (∀ store ∈ (Fill.context length value).stores, store.Regular) ∧ (Store.Placed (Fill.context length value).stores →
        Store.offsets (Fill.context length value).stores = range' 48 (length.toNat - 4) 8) := by
  have small : ∀ index ∈ range' 4 (length.toNat - 4), index < UInt32.size := by
    intro index member
    have := mem_range'_1.mp member
    have := length.toNat_lt_size
    omega
  refine ⟨?_, fun placed => ?_⟩
  · exact forall_mem_map.mpr fun index listed => (context_slot_store value (small index listed)).1
  · exact range_offsets (fun index => Store.contextSlot index value) fun index member =>
      (context_slot_store value (small index member)).2 (placed _ (mem_map.mpr ⟨index, member, rfl⟩))

-- The map comes first and alone has its barrier.
structure Region.Tidy (shaped : Prop) (region : Region) : Prop where
  first : ∃ map rest, region.allStores = .field .map map :: rest ∧ ∀ store ∈ rest, store.Regular
  covers : shaped → Store.Placed region.allStores →
    8 ∣ region.size.toNat ∧ (Store.offsets region.allStores).Perm (Layout.words region.size.toNat)

variable {shaped : Prop}

theorem Region.Tidy.wide (tidy : region.Tidy shaped) : ∀ store ∈ region.allStores, store.Wide := by
  obtain ⟨map, rest, all, regular⟩ := tidy.first
  rw [all]
  exact forall_mem_cons.mpr ⟨rfl, fun store member => store.regular_wide (regular store member)⟩

-- The header of an array is the first two words.
theorem array_tidy (size : region.size.toNat = 16 + 8 * length)
    (all : region.allStores = Region.arrayHeader count map ++ stores) (regular : ∀ store ∈ stores, store.Regular)
    (places : Store.Placed stores → Store.offsets stores = range' 16 length 8) : region.Tidy shaped where
  first := by
    refine ⟨.heap map, .field .fixedArrayLength (.number count.toInt32.toInt) :: stores, all, ?_⟩
    exact forall_mem_cons.mpr ⟨small_regular, regular⟩
  covers _ placed := by
    rw [all, Store.placed_append] at placed
    rw [all, Store.offsets_append, places placed.2, size]
    refine ⟨by omega, ?_⟩
    rw [Layout.words, show (16 + 8 * length) / 8 = length + 1 + 1 by omega, range'_succ, range'_succ]
    exact Perm.refl _

theorem fixed_array_tidy {length : UInt32} {generation : Generation}
    (made : Region.fixedArray length map generation stores = .ok region) (regular : ∀ store ∈ stores, store.Regular)
    (places : Store.Placed stores → Store.offsets stores = range' 16 length.toNat 8) :
    region.Tidy shaped ∧ region.generation = generation := by
  obtain ⟨size, fits, same⟩ := bind_eq_ok.mp made
  cases same
  exact ⟨array_tidy (Layout.fixed_array_size_eq_ok.mp fits) (append_nil _) regular places, rfl⟩

theorem element_stores {access : ElementAccess} (small : values.length < UInt32.size)
    (fine : ∀ index value, (Store.element access index value).Regular ∧ access.header = 16) :
    (∀ store ∈ values.zipIdx.map fun (value, index) => Store.element access (UInt32.ofNat index) value, store.Regular) ∧
      Store.offsets (values.zipIdx.map fun (value, index) => Store.element access (UInt32.ofNat index) value) =
        range' 16 values.length 8 := by
  refine ⟨?_, zip_idx_offsets ?_⟩
  · exact forall_mem_map.mpr fun entry _ => (fine _ entry.1).1
  · rintro ⟨value, index⟩ member
    have inside := (List.getElem?_eq_some_iff.mp (mem_zipIdx_iff_getElem?.mp member)).1
    rw [Store.offset?, (fine 0 value).2, UInt32.toNat_ofNat_of_lt' (inside.trans small)]
    rfl

theorem element_array_tidy (access : ElementAccess) (map : ObjectRef) (generation : Generation) (values : List Operand)
    (region : Region) (small : values.length < UInt32.size)
    (fine : ∀ index value, (Store.element access index value).Regular ∧ access.header = 16)
    (made : Region.fixedArray (UInt32.ofNat values.length) map generation
      (values.zipIdx.map fun (value, index) => Store.element access (UInt32.ofNat index) value) = .ok region) :
    region.Tidy shaped ∧ region.generation = generation := by
  obtain ⟨regular, places⟩ := element_stores small fine
  refine fixed_array_tidy made regular fun _ => ?_
  rw [places, UInt32.toNat_ofNat_of_lt' small]

theorem elements_tidy (kind : ElementsKind) (generation : Generation) (values : List Operand) (region : Region)
    (small : values.length < UInt32.size) (made : Region.elements kind generation values = .ok region) :
    region.Tidy shaped ∧ region.generation = generation := by
  rw [Region.elements] at made
  dsimp only at made
  split at made
  · exact element_array_tidy _ _ generation values region small (elements_regular kind) made
  · exact element_array_tidy _ _ generation values region small (elements_regular kind) made

end

end SeaOfNodes
