import SeaOfNodes.Double.Basic
import SeaOfNodes.Heap.Classification
import SeaOfNodes.Heap.Layout
import SeaOfNodes.Heap.ObjectRef

/-! What is known about heap objects at compile time. -/

namespace SeaOfNodes

inductive TaggedValue where
  | small (value : Int32)
  | object (ref : ObjectRef)
deriving DecidableEq, Repr

def TaggedValue.object? : TaggedValue → Option ObjectRef
  | .small _ => none
  | .object ref => some ref

inductive PropertyPlace where
  | field (representation : FieldRepresentation) (index : UInt32)
  | descriptor
deriving DecidableEq, Repr

structure Property where
  name : String
  place : PropertyPlace
deriving DecidableEq, Repr

structure MapInfo where
  instanceType : InstanceType
  instanceSize : UInt32
  inObjectProperties : UInt32 := 0
  elementsKind : ElementsKind := .holey
  isDictionary : Bool := false
  isDeprecated : Bool := false
  constructor : Option ObjectRef := none
  properties : List Property := []
deriving DecidableEq, Repr

namespace MapInfo

def plainObject (count : UInt32) : Except Fault MapInfo := do
  let size ← checkedAdd Layout.objectHeader (← checkedMul count Layout.slotSize)
  return { instanceType := .jsObject, instanceSize := size, inObjectProperties := count }

def isArrayMap (map : MapInfo) : Bool := map.instanceType == .jsArray

def inObjectOffset (map : MapInfo) (index : UInt32) : Except Fault UInt32 :=
  Layout.inObjectOffset map.instanceSize map.inObjectProperties index

end MapInfo

structure FunctionInfo where
  shared : ObjectRef
  initialMap : Option ObjectRef
  feedbackVector : Option ObjectRef
  isConstructor : Bool
deriving DecidableEq, Repr

structure SharedInfo where
  kind : FunctionKind
  formals : UInt32
  hasDuplicateParameters : Bool
  registers : UInt32
deriving DecidableEq, Repr

structure AllocationSite where
  boilerplate : Option ObjectRef
  elementsKind : ElementsKind
  generation : Generation
  canInlineCall : Bool
deriving DecidableEq, Repr

structure PlainObject where
  map : ObjectRef
  elements : ObjectRef
  outOfObjectProperties : UInt32
  fields : List TaggedValue
  length : Option TaggedValue
deriving DecidableEq, Repr

structure RegExpObject where
  map : ObjectRef
  properties : ObjectRef
  elements : ObjectRef
  data : ObjectRef
  source : ObjectRef
  flags : TaggedValue
  lastIndex : TaggedValue
deriving DecidableEq, Repr

structure ScopeInfo where
  scope : Scope
  contextLength : UInt32
deriving DecidableEq, Repr

inductive HeapObject where
  | map (info : MapInfo)
  | function (info : FunctionInfo)
  | sharedFunctionInfo (info : SharedInfo)
  | allocationSite (site : AllocationSite)
  | feedbackVector (slots : List (Option ObjectRef))
  | jsObject (object : PlainObject)
  | jsRegExp (object : RegExpObject)
  | fixedArray (map : ObjectRef) (values : List (Option TaggedValue))
  | fixedDoubleArray (values : List (Option Double))
  | heapNumber (value : Double)
  | scopeInfo (info : ScopeInfo)
  | oddball (kind : OddballKind)
  | string (value : String)
  | other (instanceType : InstanceType)
deriving DecidableEq, Repr

def HeapObject.instanceType : HeapObject → InstanceType
  | .map _ => .map
  | .function _ => .jsFunction
  | .sharedFunctionInfo _ => .sharedFunctionInfo
  | .allocationSite _ => .allocationSite
  | .feedbackVector _ => .feedbackVector
  | .jsObject _ => .jsObject
  | .jsRegExp _ => .jsRegExp
  | .fixedArray .. => .fixedArray
  | .fixedDoubleArray _ => .fixedDoubleArray
  | .heapNumber _ => .heapNumber
  | .scopeInfo _ => .scopeInfo
  | .oddball _ => .oddball
  | .string _ => .string
  | .other type => type

end SeaOfNodes
