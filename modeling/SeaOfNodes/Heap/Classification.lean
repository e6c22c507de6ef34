import SeaOfNodes.Value.Kinds

namespace SeaOfNodes

inductive ElementsKind where
  | packedSmi | holeySmi | packed | holey | packedDouble | holeyDouble | dictionary
deriving DecidableEq, Repr

namespace ElementsKind

def fast : List ElementsKind := [packedSmi, holeySmi, packed, holey, packedDouble, holeyDouble]

def isSmi : ElementsKind → Bool
  | packedSmi | holeySmi => true
  | _ => false

def isDouble : ElementsKind → Bool
  | packedDouble | holeyDouble => true
  | _ => false

def isHoley : ElementsKind → Bool
  | holeySmi | holey | holeyDouble => true
  | _ => false

def isFast (kind : ElementsKind) : Bool := kind != dictionary

def toHoley : ElementsKind → ElementsKind
  | packedSmi => holeySmi
  | packed => holey
  | packedDouble => holeyDouble
  | kind => kind

def toObject (kind : ElementsKind) : ElementsKind := if kind.isHoley then holey else packed

def fastIndex? : ElementsKind → Option Nat
  | packedSmi => some 0
  | holeySmi => some 1
  | packed => some 2
  | holey => some 3
  | packedDouble => some 4
  | holeyDouble => some 5
  | dictionary => none

def name : ElementsKind → String
  | packedSmi => "PackedSmi"
  | holeySmi => "HoleySmi"
  | packed => "Packed"
  | holey => "Holey"
  | packedDouble => "PackedDouble"
  | holeyDouble => "HoleyDouble"
  | dictionary => "Dictionary"

end ElementsKind

inductive InstanceType where
  | map | oddball | heapNumber | string | symbol | fixedArray | fixedDoubleArray
  | jsObject | jsArray | jsFunction | jsRegExp | jsGeneratorObject | jsAsyncGeneratorObject | jsProxy
  | sharedFunctionInfo | scopeInfo | feedbackVector | allocationSite
  | context | nativeContext | contextExtension | filler | code
deriving DecidableEq, Repr

def InstanceType.kinds : InstanceType → Kinds
  | .string => .string
  | .symbol => .symbol
  | .heapNumber => .number
  | .oddball => .oddball
  | .jsObject | .jsRegExp | .jsGeneratorObject | .jsAsyncGeneratorObject => .otherObject
  | .jsArray => .array
  | .jsFunction => .function
  | .jsProxy => .proxy
  | _ => .otherInternal

inductive FieldRepresentation where
  | none | smi
  | double
  | heapObject | tagged
deriving DecidableEq, Repr

inductive FunctionKind where
  | normal | arrow | generator | asyncGenerator
deriving DecidableEq, Repr

inductive OddballKind where
  | undefined | null | theHole | true | false | uninitialized
deriving DecidableEq, Repr

inductive Scope where
  | function | eval | script | module | block | with | catch
deriving DecidableEq, Repr

def Scope.name : Scope → String
  | .function => "Function"
  | .eval => "Eval"
  | .script => "Script"
  | .module => "Module"
  | .block => "Block"
  | .with => "With"
  | .catch => "Catch"

inductive Generation where
  | young | old
deriving DecidableEq, Repr

def Generation.name : Generation → String
  | .young => "NotTenured"
  | .old => "Tenured"

end SeaOfNodes
