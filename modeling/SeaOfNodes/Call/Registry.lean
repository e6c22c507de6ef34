import SeaOfNodes.Call.Descriptor

namespace SeaOfNodes

abbrev DescriptorId := Nat

def DescriptorId.text (id : DescriptorId) : String := s!"DescriptorId({id})"

structure Registry where
  descriptors : Array CallDescriptor := #[]
  index : List (CallDescriptor × DescriptorId) := []
  entryBase : UInt64
  inverse : ∀ descriptor id, index.lookup descriptor = some id ↔ descriptors[id]? = some descriptor := by simp
deriving DecidableEq, Repr

namespace Registry

-- Distance between the entries of two routines.
def entryStride : Nat := 0x40

def withEntries (base : UInt64) : Except Fault Registry :=
  if base.toNat + (RuntimeFunction.all.length - 1) * entryStride < UInt64.size then .ok { entryBase := base }
  else .error .overflow

def initial : Registry := { entryBase := 0x1000 }

def entry (registry : Registry) (function : RuntimeFunction) : UInt64 :=
  registry.entryBase + UInt64.ofNat (function.index * entryStride)

def size (registry : Registry) : Nat := registry.descriptors.size

theorem inverse_push (registry : Registry) (descriptor : CallDescriptor) (missing : registry.index.lookup descriptor = none)
    (other : CallDescriptor) (id : DescriptorId) :
    ((descriptor, registry.size) :: registry.index).lookup other = some id ↔
      (registry.descriptors.push descriptor)[id]? = some other := by
  rw [List.lookup_cons, Array.getElem?_push, size]
  by_cases same : other = descriptor
  · have absent : registry.descriptors[id]? ≠ some descriptor := by
      rw [Ne, ← registry.inverse, missing]
      simp
    by_cases last : id = registry.descriptors.size
    · simp [same, last]
    · simp [same, last, absent, Ne.symm last]
  · rw [beq_false_of_ne same]
    by_cases last : id = registry.descriptors.size
    · have vacant : registry.index.lookup other ≠ some id := by
        rw [Ne, registry.inverse, last]
        simp
      simp [last ▸ vacant, last, Ne.symm same]
    · simp [last, registry.inverse]

def intern (registry : Registry) (descriptor : CallDescriptor) : DescriptorId × Registry :=
  match missing : registry.index.lookup descriptor with
  | some id => (id, registry)
  | none =>
    (registry.size,
      { registry with
        descriptors := registry.descriptors.push descriptor
        index := (descriptor, registry.size) :: registry.index
        inverse := registry.inverse_push descriptor missing })

def get? (registry : Registry) (id : DescriptorId) : Option CallDescriptor := registry.descriptors[id]?

def get (registry : Registry) (id : DescriptorId) : Except Fault CallDescriptor := present (registry.get? id)

def text (registry : Registry) : String := s!"Linkage \x7b descriptors: {registry.size}, .. \x7d"

end Registry

end SeaOfNodes
