import SeaOfNodes.Heap.Object

/-!
A snapshot of the heap: a list of objects that begins with the immortal roots and the maps of the native context, each at a fixed
place.
-/

namespace SeaOfNodes

namespace Root

def undefined : ObjectRef := ⟨0⟩
def null : ObjectRef := ⟨1⟩
def theHole : ObjectRef := ⟨2⟩
def trueValue : ObjectRef := ⟨3⟩
def falseValue : ObjectRef := ⟨4⟩
def uninitialized : ObjectRef := ⟨5⟩
def fixedArrayMap : ObjectRef := ⟨6⟩
def copyOnWriteArrayMap : ObjectRef := ⟨7⟩
def fixedDoubleArrayMap : ObjectRef := ⟨8⟩
def sloppyArgumentsElementsMap : ObjectRef := ⟨9⟩
def heapNumberMap : ObjectRef := ⟨10⟩
def mutableHeapNumberMap : ObjectRef := ⟨11⟩
def onePointerFillerMap : ObjectRef := ⟨12⟩
def contextExtensionMap : ObjectRef := ⟨13⟩
def functionContextMap : ObjectRef := ⟨14⟩
def evalContextMap : ObjectRef := ⟨15⟩
def withContextMap : ObjectRef := ⟨16⟩
def catchContextMap : ObjectRef := ⟨17⟩
def blockContextMap : ObjectRef := ⟨18⟩
def emptyFixedArray : ObjectRef := ⟨19⟩

def named : List (String × ObjectRef) :=
  [("undefined", undefined), ("null", null), ("the_hole", theHole), ("true_value", trueValue),
   ("false_value", falseValue), ("uninitialized", uninitialized), ("empty_fixed_array", emptyFixedArray),
   ("fixed_array_map", fixedArrayMap), ("fixed_cow_array_map", copyOnWriteArrayMap),
   ("fixed_double_array_map", fixedDoubleArrayMap),
   ("sloppy_arguments_elements_map", sloppyArgumentsElementsMap), ("heap_number_map", heapNumberMap),
   ("mutable_heap_number_map", mutableHeapNumberMap), ("one_pointer_filler_map", onePointerFillerMap),
   ("context_extension_map", contextExtensionMap), ("function_context_map", functionContextMap),
   ("eval_context_map", evalContextMap), ("with_context_map", withContextMap),
   ("catch_context_map", catchContextMap), ("block_context_map", blockContextMap)]

end Root

namespace NativeContext

def object : ObjectRef := ⟨20⟩
def sloppyArgumentsMap : ObjectRef := ⟨21⟩
def fastAliasedArgumentsMap : ObjectRef := ⟨22⟩
def strictArgumentsMap : ObjectRef := ⟨23⟩
def iteratorResultMap : ObjectRef := ⟨24⟩
def objectLiteralMap : ObjectRef := ⟨25⟩

def arrayMap? (kind : ElementsKind) : Option ObjectRef :=
  kind.fastIndex?.map fun index => ⟨26 + UInt32.ofNat index⟩

def named : List (String × ObjectRef) :=
  [("native_context", object), ("sloppy_arguments_map", sloppyArgumentsMap),
   ("fast_aliased_arguments_map", fastAliasedArgumentsMap), ("strict_arguments_map", strictArgumentsMap),
   ("iterator_result_map", iteratorResultMap), ("object_literal_map", objectLiteralMap)] ++
  ElementsKind.fast.filterMap fun kind => (arrayMap? kind).map fun map => (s!"js_array_map.{kind.name}", map)

end NativeContext

inductive RootIndex where
  | undefined | null | theHole | true | false | uninitialized | emptyFixedArray
  | fixedArrayMap | fixedCowArrayMap | fixedDoubleArrayMap | heapNumberMap | mutableHeapNumberMap
  | arrayProtector | stringTable
deriving DecidableEq, Repr

namespace RootIndex

def offset (index : RootIndex) : Int64 := Int64.ofNat (index.ctorIdx * 8)

def constant? : RootIndex → Option ObjectRef
  | undefined => some Root.undefined
  | null => some Root.null
  | theHole => some Root.theHole
  | true => some Root.trueValue
  | false => some Root.falseValue
  | uninitialized => some Root.uninitialized
  | emptyFixedArray => some Root.emptyFixedArray
  | fixedArrayMap => some Root.fixedArrayMap
  | fixedCowArrayMap => some Root.copyOnWriteArrayMap
  | fixedDoubleArrayMap => some Root.fixedDoubleArrayMap
  | heapNumberMap => some Root.heapNumberMap
  | mutableHeapNumberMap => some Root.mutableHeapNumberMap
  | arrayProtector | stringTable => none

end RootIndex

structure Snapshot where
  objects : Array HeapObject
deriving DecidableEq, Repr

namespace Snapshot

def initial : Snapshot :=
  let map (type : InstanceType) (size : UInt32) : HeapObject :=
    .map { instanceType := type, instanceSize := size }
  ⟨#[.oddball .undefined, .oddball .null, .oddball .theHole, .oddball .true, .oddball .false,
     .oddball .uninitialized,
     map .fixedArray 0, map .fixedArray 0, map .fixedDoubleArray 0, map .fixedArray 0,
     map .heapNumber Layout.heapNumberSize, map .heapNumber Layout.heapNumberSize,
     map .filler Layout.slotSize, map .contextExtension Layout.contextExtensionSize,
     map .context 0, map .context 0, map .context 0, map .context 0, map .context 0,
     .fixedArray Root.fixedArrayMap [],
     .other .nativeContext,
     map .jsObject Layout.sloppyArgumentsSize,
     .map { instanceType := .jsObject, instanceSize := Layout.sloppyArgumentsSize, elementsKind := .dictionary },
     map .jsObject Layout.strictArgumentsSize,
     map .jsObject Layout.iterResultSize,
     .map { instanceType := .jsObject, instanceSize := 56, inObjectProperties := 4 }] ++
   (ElementsKind.fast.map fun kind =>
     .map { instanceType := .jsArray, instanceSize := Layout.arraySize, elementsKind := kind }).toArray⟩

def size (heap : Snapshot) : Nat := heap.objects.size

def isEmpty (heap : Snapshot) : Bool := heap.objects.isEmpty

def add (heap : Snapshot) (object : HeapObject) : ObjectRef × Snapshot :=
  (⟨UInt32.ofNat heap.objects.size⟩, ⟨heap.objects.push object⟩)

def set (heap : Snapshot) (ref : ObjectRef) (object : HeapObject) : Snapshot :=
  ⟨heap.objects.modify ref.index.toNat fun _ => object⟩

def get? (heap : Snapshot) (ref : ObjectRef) : Option HeapObject := heap.objects[ref.index.toNat]?

def map? (heap : Snapshot) (ref : ObjectRef) : Option MapInfo :=
  match heap.get? ref with
  | some (.map info) => some info
  | _ => none

def function? (heap : Snapshot) (ref : ObjectRef) : Option FunctionInfo :=
  match heap.get? ref with
  | some (.function info) => some info
  | _ => none

def sharedInfo? (heap : Snapshot) (ref : ObjectRef) : Option SharedInfo :=
  match heap.get? ref with
  | some (.sharedFunctionInfo info) => some info
  | _ => none

def allocationSite? (heap : Snapshot) (ref : ObjectRef) : Option AllocationSite :=
  match heap.get? ref with
  | some (.allocationSite site) => some site
  | _ => none

def feedbackVector? (heap : Snapshot) (ref : ObjectRef) : Option (List (Option ObjectRef)) :=
  match heap.get? ref with
  | some (.feedbackVector slots) => some slots
  | _ => none

def plainObject? (heap : Snapshot) (ref : ObjectRef) : Option PlainObject :=
  match heap.get? ref with
  | some (.jsObject object) => some object
  | _ => none

def regExp? (heap : Snapshot) (ref : ObjectRef) : Option RegExpObject :=
  match heap.get? ref with
  | some (.jsRegExp object) => some object
  | _ => none

def scopeInfo? (heap : Snapshot) (ref : ObjectRef) : Option ScopeInfo :=
  match heap.get? ref with
  | some (.scopeInfo info) => some info
  | _ => none

def heapNumber? (heap : Snapshot) (ref : ObjectRef) : Option Double :=
  match heap.get? ref with
  | some (.heapNumber value) => some value
  | _ => none

def kindsOf (heap : Snapshot) (ref : ObjectRef) : Kinds :=
  if ref = Root.theHole then .hole
  else if ref = Root.undefined then .undefined
  else if ref = Root.null then .null
  else if ref = Root.trueValue ∨ ref = Root.falseValue then .boolean
  else
    match heap.get? ref with
    | some (.jsObject object) =>
      match heap.map? object.map with
      | some info => info.instanceType.kinds
      | none => .otherObject
    | some object => object.instanceType.kinds
    | none => .any

end Snapshot

end SeaOfNodes
