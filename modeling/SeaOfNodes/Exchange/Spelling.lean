import SeaOfNodes.Exchange.Datum
import SeaOfNodes.Heap.Snapshot
import SeaOfNodes.Operator.Basic

/-! Enumerations are exchanged as one word for each of their values. -/

namespace SeaOfNodes

class Spelled (α : Type) where
  spellings : List (α × String)

namespace Spelled

variable {α : Type} [Spelled α]

def spell [DecidableEq α] (value : α) : Datum := .text (((spellings : List (α × String)).lookup value).getD "")

def readSpelled (data : Datum) : Reader α := do
  let name ← data.readText
  Reader.ofOption (((spellings : List (α × String)).find? fun entry => entry.2 == name).map Prod.fst)

end Spelled

instance : Spelled Representation where
  spellings :=
    [(.none, "None"), (.bit, "Bit"), (.word8, "Word8"), (.word16, "Word16"), (.word32, "Word32"),
     (.word64, "Word64"), (.taggedSigned, "TaggedSigned"), (.taggedPointer, "TaggedPointer"),
     (.tagged, "Tagged"), (.float32, "Float32"), (.float64, "Float64")]

instance : Spelled Semantic where
  spellings :=
    [Semantic.none, .bool, .int32, .uint32, .int64, .uint64, .number, .any].map fun semantic =>
      (semantic, semantic.name)

instance : Spelled ElementsKind where
  spellings := (ElementsKind.fast ++ [ElementsKind.dictionary]).map fun kind => (kind, kind.name)

instance : Spelled InstanceType where
  spellings :=
    [(.map, "Map"), (.oddball, "Oddball"), (.heapNumber, "HeapNumber"), (.string, "String"),
     (.symbol, "Symbol"), (.fixedArray, "FixedArray"), (.fixedDoubleArray, "FixedDoubleArray"),
     (.jsObject, "JSObject"), (.jsArray, "JSArray"), (.jsFunction, "JSFunction"), (.jsRegExp, "JSRegExp"),
     (.jsGeneratorObject, "JSGeneratorObject"), (.jsAsyncGeneratorObject, "JSAsyncGeneratorObject"),
     (.jsProxy, "JSProxy"), (.sharedFunctionInfo, "SharedFunctionInfo"), (.scopeInfo, "ScopeInfo"),
     (.feedbackVector, "FeedbackVector"), (.allocationSite, "AllocationSite"), (.context, "Context"),
     (.nativeContext, "NativeContext"), (.contextExtension, "ContextExtension"), (.filler, "Filler"),
     (.code, "Code")]

instance : Spelled FieldRepresentation where
  spellings :=
    [(.none, "None"), (.smi, "Smi"), (.double, "Double"), (.heapObject, "HeapObject"), (.tagged, "Tagged")]

instance : Spelled FunctionKind where
  spellings :=
    [(.normal, "Normal"), (.arrow, "Arrow"), (.generator, "Generator"), (.asyncGenerator, "AsyncGenerator")]

instance : Spelled OddballKind where
  spellings :=
    [(.undefined, "Undefined"), (.null, "Null"), (.theHole, "TheHole"), (.true, "True"), (.false, "False"),
     (.uninitialized, "Uninitialized")]

instance : Spelled Scope where
  spellings :=
    [Scope.function, .eval, .script, .module, .block, .with, .catch].map fun scope => (scope, scope.name)

instance : Spelled Generation where
  spellings := [Generation.young, .old].map fun generation => (generation, generation.name)

instance : Spelled WriteBarrier where
  spellings := [WriteBarrier.none, .map, .pointer, .full].map fun barrier => (barrier, barrier.name)

instance : Spelled AccessBase where
  spellings := [(.untagged, "Untagged"), (.tagged, "Tagged")]

instance : Spelled FrameStateKind where
  spellings :=
    [(.interpreted, "Interpreted"), (.argumentsAdaptor, "ArgumentsAdaptor"), (.constructStub, "ConstructStub")]

instance : Spelled ArgumentsKind where
  spellings := [(.mapped, "Mapped"), (.unmapped, "Unmapped"), (.rest, "Rest")]

instance : Spelled RuntimeFunction where
  spellings := RuntimeFunction.all.map fun function => (function, function.name)

instance : Spelled MachineOp where
  spellings := MachineOp.all.map fun op => (op, op.name)

instance : Spelled CallKind where
  spellings := [CallKind.codeObject, .address, .jsFunction].map fun kind => (kind, kind.name)

instance : Spelled RootIndex where
  spellings :=
    [(.undefined, "Undefined"), (.null, "Null"), (.theHole, "TheHole"), (.true, "True"), (.false, "False"),
     (.uninitialized, "Uninitialized"), (.emptyFixedArray, "EmptyFixedArray"),
     (.fixedArrayMap, "FixedArrayMap"), (.fixedCowArrayMap, "FixedCowArrayMap"),
     (.fixedDoubleArrayMap, "FixedDoubleArrayMap"), (.heapNumberMap, "HeapNumberMap"),
     (.mutableHeapNumberMap, "MutableHeapNumberMap"), (.arrayProtector, "ArrayProtector"),
     (.stringTable, "StringTable")]

end SeaOfNodes
