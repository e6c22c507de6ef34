import SeaOfNodes.Fault

/-! Byte offsets and sizes of heap objects. -/

namespace SeaOfNodes.Layout

def slotSize : UInt32 := 8

def mapOffset : UInt32 := 0
def heapNumberValueOffset : UInt32 := 8
def heapNumberSize : UInt32 := 16
def mementoSize : UInt32 := 16

def fixedArrayLengthOffset : UInt32 := 8
def fixedArrayHeader : UInt32 := 16

def fixedArraySize (length : UInt32) : Except Fault UInt32 := do
  checkedAdd fixedArrayHeader (← checkedMul length slotSize)

def fixedDoubleArraySize (length : UInt32) : Except Fault UInt32 := do
  checkedAdd fixedArrayHeader (← checkedMul length 8)

def holeBits : UInt64 := 0xFFF7FFFFFFF7FFFF

def propertiesOffset : UInt32 := 8
def elementsOffset : UInt32 := 16
def objectHeader : UInt32 := 24
def arrayLengthOffset : UInt32 := 24
def arraySize : UInt32 := 32
def argumentsLengthOffset : UInt32 := 24
def argumentsCalleeOffset : UInt32 := 32
def strictArgumentsSize : UInt32 := 32
def sloppyArgumentsSize : UInt32 := 40
def iterResultValueOffset : UInt32 := 24
def iterResultDoneOffset : UInt32 := 32
def iterResultSize : UInt32 := 40
def regExpDataOffset : UInt32 := 24
def regExpSourceOffset : UInt32 := 32
def regExpFlagsOffset : UInt32 := 40
def regExpLastIndexOffset : UInt32 := 48
def regExpSize : UInt32 := 56
def generatorFunctionOffset : UInt32 := 24
def generatorContextOffset : UInt32 := 32
def generatorReceiverOffset : UInt32 := 40
def generatorInputOffset : UInt32 := 48
def generatorResumeModeOffset : UInt32 := 56
def generatorContinuationOffset : UInt32 := 64
def generatorRegistersOffset : UInt32 := 72
def asyncGeneratorQueueOffset : UInt32 := 80
def asyncGeneratorAwaitedOffset : UInt32 := 88
def resumeNext : Int32 := 0
def generatorExecuting : Int32 := -2
def contextExtensionScopeInfoOffset : UInt32 := 8
def contextExtensionOffset : UInt32 := 16
def contextExtensionSize : UInt32 := 24

def inObjectOffset (instanceSize count index : UInt32) : Except Fault UInt32 := do
  checkedSub instanceSize (← checkedMul (← checkedSub count index) slotSize)

def minContextSlots : UInt32 := 4
def closureSlot : UInt32 := 0
def previousSlot : UInt32 := 1
def extensionSlot : UInt32 := 2
def nativeContextSlot : UInt32 := 3
def thrownObjectSlot : UInt32 := 4

def contextSlotOffset (index : UInt32) : Except Fault UInt32 := fixedArraySize index

def contextSize (length : UInt32) : Except Fault UInt32 := fixedArraySize length

end SeaOfNodes.Layout
