import SeaOfNodes.Creation.Allocation
import SeaOfNodes.Heap.Snapshot

/-! What an inline creation is going to build, as data. -/

namespace SeaOfNodes

inductive Operand where
  | node (id : NodeId)
  | constant (value : Constant)
  | made (action : Nat)
deriving DecidableEq, Repr

namespace Operand

def heap (object : ObjectRef) : Operand := constant (.heap object)

def number (value : Int) : Operand := constant (.number (.ofInt value))

end Operand

inductive Store where
  | field (access : FieldAccess) (value : Operand)
  | element (access : ElementAccess) (index : UInt32) (value : Operand)
  | misplaced (fault : Fault)
deriving DecidableEq, Repr

inductive Fill where
  | nothing
  | inObject (map : MapInfo) (value : Operand)
  | context (length : UInt32) (value : Operand)
deriving DecidableEq, Repr

structure Region where
  size : UInt32
  generation : Generation
  type : ValueType
  stores : List Store
  fill : Fill := .nothing
deriving DecidableEq, Repr

inductive Action where
  | constant (value : Constant)
  | node (op : Operator) (values : List Operand) (type : ValueType)
  | region (region : Region)
deriving DecidableEq, Repr

inductive Ending where
  | become
  | replace
deriving DecidableEq, Repr

structure Plan where
  effect : NodeId
  control : NodeId
  actions : List Action
  last : Region
  ending : Ending
deriving DecidableEq, Repr

namespace Region

def arrayHeader (length : UInt32) (map : ObjectRef) : List Store :=
  [.field .map (.heap map), .field .fixedArrayLength (.number length.toInt32.toInt)]

def fixedArray (length : UInt32) (map : ObjectRef) (generation : Generation) (stores : List Store) :
    Except Fault Region := do
  return { size := ← Layout.fixedArraySize length
           generation := generation
           type := .ofKinds .otherInternal
           stores := arrayHeader length map ++ stores }

def doubleArray (length : UInt32) (generation : Generation) (stores : List Store) : Except Fault Region := do
  return { size := ← Layout.fixedDoubleArraySize length
           generation := generation
           type := .ofKinds .otherInternal
           stores := arrayHeader length Root.fixedDoubleArrayMap ++ stores }

def objectHeader (map : ObjectRef) (elements : Operand) : List Store :=
  [.field .map (.heap map), .field .properties (.heap Root.emptyFixedArray), .field .elements elements]

def inObject (map : MapInfo) (value : UInt32 → Operand) : Nat → UInt32 → List Store
  | 0, _ => []
  | slots + 1, index =>
    match FieldAccess.inObject map index with
    | .ok access => .field access (value index) :: inObject map value slots (index + 1)
    | .error fault => [.misplaced fault]

def allInObject (map : MapInfo) (value : UInt32 → Operand) : List Store :=
  inObject map value map.inObjectProperties.toNat 0

end Region

def Store.contextSlot (index : Nat) (value : Operand) : Store :=
  match FieldAccess.contextSlot (UInt32.ofNat index) with
  | .ok access => .field access value
  | .error fault => .misplaced fault

def Fill.stores : Fill → List Store
  | .nothing => []
  | .inObject map value => Region.allInObject map fun _ => value
  | .context length value =>
    let header := Layout.minContextSlots.toNat
    (List.range' header (length.toNat - header)).map fun index => .contextSlot index value

def Region.allStores (region : Region) : List Store := region.stores ++ region.fill.stores

inductive Reduction where
  | unchanged
  | changed (id : NodeId)
  | replaced (id : NodeId)
deriving DecidableEq, Repr

namespace Plan

structure Progress where
  effect : NodeId
  results : Array NodeId := #[]

def resolve (results : Array NodeId) : Operand → Build NodeId
  | .node id => pure id
  | .constant value => Build.constant value
  | .made action => Build.ofExcept (present results[action]?)

def store (results : Array NodeId) (a : Allocation) : Store → Build Allocation
  | .field access value => do a.storeField access (← resolve results value)
  | .element access index value => do a.storeElement access index (← resolve results value)
  | .misplaced fault => throw fault

def openRegion (plan : Plan) (limit : UInt32) (progress : Progress) (region : Region) : Build Allocation := do
  let a : Allocation := { effect := progress.effect, control := plan.control, limit := some limit }
  let a ← a.allocate region.size region.generation region.type
  region.allStores.foldlM (store progress.results) a

def perform (plan : Plan) (limit : UInt32) (progress : Progress) : Action → Build Progress
  | .constant value => do
    let id ← Build.constant value
    return { progress with results := progress.results.push id }
  | .node op values type => do
    let values ← values.mapM (resolve progress.results)
    let effects := if 0 < op.layout.effects then [progress.effect] else []
    let controls := if 0 < op.layout.controls then [plan.control] else []
    let id ← Build.addTypedNode op (values ++ effects ++ controls) type
    return { effect := if 0 < op.outputs.effects then id else progress.effect
             results := progress.results.push id }
  | .region region => do
    let id ← (← plan.openRegion limit progress region).finish
    return { effect := id, results := progress.results.push id }

def execute (plan : Plan) (limit : UInt32) (id : NodeId) : Build Reduction := do
  let progress ← plan.actions.foldlM (plan.perform limit) { effect := plan.effect }
  let a ← plan.openRegion limit progress plan.last
  match plan.ending with
  | .become =>
    Build.change fun graph => graph.relaxControls id
    a.finishAs id
    return .changed id
  | .replace =>
    let value ← a.finish
    Build.change fun graph => graph.replaceWithValue id value (some value) (some plan.control)
    return .replaced value

end Plan

end SeaOfNodes
