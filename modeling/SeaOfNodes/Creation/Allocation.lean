import SeaOfNodes.Build

/-!
One inline allocation and the stores that initialize it, all on a single effect chain: effect, BeginRegion, Allocate, StoreField
(map), further stores, FinishRegion so that no store moves before the allocation or past another store of the object.
-/

namespace SeaOfNodes

structure Allocation where
  object : Option NodeId := none
  effect : NodeId
  control : NodeId
  generation : Generation := .young
  limit : Option UInt32 := none
deriving DecidableEq, Repr

namespace Allocation

def allocate (a : Allocation) (size : UInt32) (generation : Generation) (type : ValueType) :
    Build Allocation := do
  if let some limit := a.limit then
    if limit < size then Build.report (.allocationTooLarge size limit)
  let region ← Build.addNode .beginRegion [a.effect]
  let bytes ← Build.constant (.int32 size.toInt32)
  let object ← Build.addTypedNode (.allocate generation) [bytes, region, a.control] type
  return { a with object := some object, effect := object, generation := generation }

def barrier (generation : Generation) : WriteBarrier → WriteBarrier
  | .map => .map
  | requested =>
    match generation with
    | .young => .none
    | .old => requested

def storeField (a : Allocation) (access : FieldAccess) (value : NodeId) : Build Allocation := do
  let access := { access with barrier := barrier a.generation access.barrier }
  let object ← Build.ofExcept (present a.object)
  let effect ← Build.addNode (.storeField access) [object, value, a.effect, a.control]
  return { a with effect := effect }

def storeElement (a : Allocation) (access : ElementAccess) (index : UInt32) (value : NodeId) :
    Build Allocation := do
  let access := { access with barrier := barrier a.generation access.barrier }
  let object ← Build.ofExcept (present a.object)
  let index ← Build.constant (.number (.ofUInt32 index))
  let effect ← Build.addNode (.storeElement access) [object, index, value, a.effect, a.control]
  return { a with effect := effect }

def storeConstant (a : Allocation) (access : FieldAccess) (value : Constant) : Build Allocation := do
  a.storeField access (← Build.constant value)

def finish (a : Allocation) : Build NodeId := do
  let object ← Build.ofExcept (present a.object)
  let node ← Build.query fun graph => graph.node object
  Build.addTypedNode .finishRegion [object, a.effect] node.type

def finishAs (a : Allocation) (id : NodeId) : Build Unit := do
  let node ← Build.query fun graph => graph.node id
  let object ← Build.ofExcept (present a.object)
  if node.type.kinds = .any then
    let made ← Build.query fun graph => graph.node object
    Build.change fun graph => graph.setType id made.type
  else
    Build.change fun graph => graph.setType object node.type
  Build.change fun graph => graph.replaceInput id 0 object
  Build.change fun graph => graph.replaceInput id 1 a.effect
  Build.change fun graph => graph.trimInputs id 2
  Build.change fun graph => graph.changeOp id .finishRegion

def storeArrayHeader (a : Allocation) (length : UInt32) (map : ObjectRef) : Build Allocation := do
  let a ← a.storeConstant .map (.heap map)
  a.storeConstant .fixedArrayLength (.number (.ofInt32 length.toInt32))

def allocateFixedArray (a : Allocation) (length : UInt32) (map : ObjectRef) (generation : Generation) :
    Build Allocation := do
  let size ← Build.ofExcept (Layout.fixedArraySize length)
  let a ← a.allocate size generation (.ofKinds .otherInternal)
  a.storeArrayHeader length map

def allocateDoubleArray (a : Allocation) (length : UInt32) (map : ObjectRef) (generation : Generation) :
    Build Allocation := do
  let size ← Build.ofExcept (Layout.fixedDoubleArraySize length)
  let a ← a.allocate size generation (.ofKinds .otherInternal)
  a.storeArrayHeader length map

end Allocation

end SeaOfNodes
