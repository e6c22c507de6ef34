namespace SeaOfNodes

inductive Representation where
  | none | bit | word8 | word16 | word32 | word64
  | taggedSigned | taggedPointer | tagged
  | float32 | float64
deriving DecidableEq, Repr

namespace Representation

def pointer : Representation := word64

def isTagged : Representation → Bool
  | taggedSigned | taggedPointer | tagged => true
  | _ => false

def canBeTaggedPointer : Representation → Bool
  | taggedPointer | tagged => true
  | _ => false

def isFloat : Representation → Bool
  | float32 | float64 => true
  | _ => false

def bytes : Representation → UInt32
  | none => 0
  | bit | word8 => 1
  | word16 => 2
  | word32 | float32 => 4
  | word64 | taggedSigned | taggedPointer | tagged | float64 => 8

def text : Representation → String
  | none => "none"
  | bit => "bit"
  | word8 => "word8"
  | word16 => "word16"
  | word32 => "word32"
  | word64 => "word64"
  | taggedSigned => "tagged-signed"
  | taggedPointer => "tagged-pointer"
  | tagged => "tagged"
  | float32 => "float32"
  | float64 => "float64"

end Representation

inductive Semantic where
  | none | bool | int32 | uint32 | int64 | uint64 | number | any
deriving DecidableEq, Repr

def Semantic.name : Semantic → String
  | .none => "None"
  | .bool => "Bool"
  | .int32 => "Int32"
  | .uint32 => "Uint32"
  | .int64 => "Int64"
  | .uint64 => "Uint64"
  | .number => "Number"
  | .any => "Any"

structure MachineType where
  representation : Representation
  semantic : Semantic
deriving DecidableEq, Repr

namespace MachineType

def none : MachineType := ⟨.none, .none⟩
def bool : MachineType := ⟨.bit, .bool⟩
def uint8 : MachineType := ⟨.word8, .uint32⟩
def int32 : MachineType := ⟨.word32, .int32⟩
def uint32 : MachineType := ⟨.word32, .uint32⟩
def int64 : MachineType := ⟨.word64, .int64⟩
def pointer : MachineType := ⟨.pointer, .none⟩
def intptr : MachineType := ⟨.pointer, .int64⟩
def float64 : MachineType := ⟨.float64, .number⟩
def anyTagged : MachineType := ⟨.tagged, .any⟩
def taggedSigned : MachineType := ⟨.taggedSigned, .int32⟩
def taggedPointer : MachineType := ⟨.taggedPointer, .any⟩

def text (type : MachineType) : String := s!"{type.representation.text}|{type.semantic.name}"

end MachineType

end SeaOfNodes
