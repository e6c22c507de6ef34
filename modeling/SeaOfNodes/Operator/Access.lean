import SeaOfNodes.Heap.Object
import SeaOfNodes.Value.Machine

/-! How memory is accessed: a field by its byte offset, an element by its index. -/

namespace SeaOfNodes

inductive WriteBarrier where
  | none | map | pointer | full
deriving DecidableEq, Repr

def WriteBarrier.name : WriteBarrier → String
  | .none => "None"
  | .map => "Map"
  | .pointer => "Pointer"
  | .full => "Full"

inductive AccessBase where
  | untagged | tagged
deriving DecidableEq, Repr

structure FieldAccess where
  base : AccessBase
  offset : UInt32
  kinds : Kinds
  machineType : MachineType
  barrier : WriteBarrier
  name : String
deriving DecidableEq, Repr

structure ElementAccess where
  base : AccessBase
  header : UInt32
  kinds : Kinds
  machineType : MachineType
  barrier : WriteBarrier
deriving DecidableEq, Repr

namespace FieldAccess

def tagged (offset : UInt32) (kinds : Kinds) (name : String) : FieldAccess :=
  ⟨.tagged, offset, kinds, .anyTagged, .full, name⟩

def pointer (offset : UInt32) (kinds : Kinds) (name : String) : FieldAccess :=
  ⟨.tagged, offset, kinds, .taggedPointer, .pointer, name⟩

def small (offset : UInt32) (name : String) : FieldAccess :=
  ⟨.tagged, offset, .signedSmall, .taggedSigned, .none, name⟩

def map : FieldAccess := ⟨.tagged, Layout.mapOffset, .otherInternal, .taggedPointer, .map, "map"⟩

def heapNumberValue : FieldAccess :=
  ⟨.tagged, Layout.heapNumberValueOffset, .number, .float64, .none, "value"⟩

def properties : FieldAccess := tagged Layout.propertiesOffset .any "properties"

def elements : FieldAccess := pointer Layout.elementsOffset .otherInternal "elements"

def inObject (map : MapInfo) (index : UInt32) : Except Fault FieldAccess := do
  return tagged (← map.inObjectOffset index) .any "in-object"

def arrayLength (kind : ElementsKind) : FieldAccess :=
  if kind.isFast then small Layout.arrayLengthOffset "length"
  else tagged Layout.arrayLengthOffset .number "length"

def argumentsLength : FieldAccess := tagged Layout.argumentsLengthOffset .number "length"
def argumentsCallee : FieldAccess := pointer Layout.argumentsCalleeOffset .function "callee"
def iterResultValue : FieldAccess := tagged Layout.iterResultValueOffset .any "value"
def iterResultDone : FieldAccess := tagged Layout.iterResultDoneOffset .any "done"
def regExpData : FieldAccess := tagged Layout.regExpDataOffset .otherInternal "data"
def regExpSource : FieldAccess := tagged Layout.regExpSourceOffset .string "source"
def regExpFlags : FieldAccess := tagged Layout.regExpFlagsOffset .signedSmall "flags"
def regExpLastIndex : FieldAccess := tagged Layout.regExpLastIndexOffset .number "lastIndex"
def generatorFunction : FieldAccess := pointer Layout.generatorFunctionOffset .function "function"
def generatorContext : FieldAccess := pointer Layout.generatorContextOffset .otherInternal "context"
def generatorReceiver : FieldAccess := tagged Layout.generatorReceiverOffset .any "receiver"
def generatorInput : FieldAccess := tagged Layout.generatorInputOffset .any "input"
def generatorResumeMode : FieldAccess := small Layout.generatorResumeModeOffset "resume_mode"
def generatorContinuation : FieldAccess := small Layout.generatorContinuationOffset "continuation"
def generatorRegisters : FieldAccess := pointer Layout.generatorRegistersOffset .otherInternal "registers"
def asyncGeneratorQueue : FieldAccess := tagged Layout.asyncGeneratorQueueOffset .any "queue"
def asyncGeneratorAwaited : FieldAccess := tagged Layout.asyncGeneratorAwaitedOffset .any "awaited"
def fixedArrayLength : FieldAccess := small Layout.fixedArrayLengthOffset "length"

def fixedArraySlot (index : UInt32) : Except Fault FieldAccess := do
  return tagged (← Layout.fixedArraySize index) .any "slot"

def contextSlotName (index : UInt32) : String :=
  if index = Layout.closureSlot then "closure"
  else if index = Layout.previousSlot then "previous"
  else if index = Layout.extensionSlot then "extension"
  else if index = Layout.nativeContextSlot then "native_context"
  else "slot"

def contextSlot (index : UInt32) : Except Fault FieldAccess := do
  return tagged (← Layout.contextSlotOffset index) .any (contextSlotName index)

def contextExtensionScopeInfo : FieldAccess :=
  pointer Layout.contextExtensionScopeInfoOffset .otherInternal "scope_info"

def contextExtension : FieldAccess := tagged Layout.contextExtensionOffset .any "extension"

end FieldAccess

namespace ElementAccess

def fixedArray (kind : ElementsKind) : ElementAccess :=
  if kind.isSmi then
    ⟨.tagged, Layout.fixedArrayHeader, if kind.isHoley then .signedSmall ||| .hole else .signedSmall,
      .taggedSigned, .none⟩
  else ⟨.tagged, Layout.fixedArrayHeader, .any, .anyTagged, .full⟩

def fixedDoubleArray : ElementAccess := ⟨.tagged, Layout.fixedArrayHeader, .number, .float64, .none⟩

end ElementAccess

end SeaOfNodes
