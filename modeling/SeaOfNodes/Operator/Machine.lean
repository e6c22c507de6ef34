import SeaOfNodes.Value.Machine

namespace SeaOfNodes

inductive MachineOp where
  | word32And | word32Or | word32Xor | word32Shl | word32Shr | word32Sar | word32Equal
  | int32Add | int32Sub | int32Mul | int32LessThan | int32LessThanOrEqual
  | uint32LessThan | uint32LessThanOrEqual
  | word64And | word64Or | word64Xor | word64Shl | word64Shr | word64Sar | word64Equal
  | int64Add | int64Sub | int64Mul | int64LessThan | int64LessThanOrEqual | uint64LessThan
  | float64Add | float64Sub | float64Mul | float64Div
  | float64Equal | float64LessThan | float64LessThanOrEqual | float64SilenceNaN
  | changeInt32ToFloat64 | changeInt32ToInt64 | changeUint32ToUint64 | changeFloat64ToInt32
  | truncateInt64ToInt32 | bitcastTaggedToWord | bitcastWordToTagged
  | loadFramePointer | loadParentFramePointer | loadStackPointer
deriving DecidableEq, Repr

namespace MachineOp

def valueInputs : MachineOp → Nat
  | loadFramePointer | loadParentFramePointer | loadStackPointer => 0
  | float64SilenceNaN | changeInt32ToFloat64 | changeInt32ToInt64 | changeUint32ToUint64
  | changeFloat64ToInt32 | truncateInt64ToInt32 | bitcastTaggedToWord | bitcastWordToTagged => 1
  | _ => 2

def representation : MachineOp → Representation
  | word32Equal | int32LessThan | int32LessThanOrEqual | uint32LessThan | uint32LessThanOrEqual
  | word64Equal | int64LessThan | int64LessThanOrEqual | uint64LessThan
  | float64Equal | float64LessThan | float64LessThanOrEqual => .bit
  | word32And | word32Or | word32Xor | word32Shl | word32Shr | word32Sar
  | int32Add | int32Sub | int32Mul | changeFloat64ToInt32 | truncateInt64ToInt32 => .word32
  | float64Add | float64Sub | float64Mul | float64Div | float64SilenceNaN | changeInt32ToFloat64 => .float64
  | bitcastWordToTagged => .tagged
  | _ => .word64

def isCommutative : MachineOp → Bool
  | word32And | word32Or | word32Xor | word32Equal | int32Add | int32Mul
  | word64And | word64Or | word64Xor | word64Equal | int64Add | int64Mul
  | float64Add | float64Mul | float64Equal => true
  | _ => false

def all : List MachineOp :=
  [word32And, word32Or, word32Xor, word32Shl, word32Shr, word32Sar, word32Equal,
   int32Add, int32Sub, int32Mul, int32LessThan, int32LessThanOrEqual,
   uint32LessThan, uint32LessThanOrEqual,
   word64And, word64Or, word64Xor, word64Shl, word64Shr, word64Sar, word64Equal,
   int64Add, int64Sub, int64Mul, int64LessThan, int64LessThanOrEqual, uint64LessThan,
   float64Add, float64Sub, float64Mul, float64Div,
   float64Equal, float64LessThan, float64LessThanOrEqual, float64SilenceNaN,
   changeInt32ToFloat64, changeInt32ToInt64, changeUint32ToUint64, changeFloat64ToInt32,
   truncateInt64ToInt32, bitcastTaggedToWord, bitcastWordToTagged,
   loadFramePointer, loadParentFramePointer, loadStackPointer]

def name : MachineOp → String
  | word32And => "Word32And"
  | word32Or => "Word32Or"
  | word32Xor => "Word32Xor"
  | word32Shl => "Word32Shl"
  | word32Shr => "Word32Shr"
  | word32Sar => "Word32Sar"
  | word32Equal => "Word32Equal"
  | int32Add => "Int32Add"
  | int32Sub => "Int32Sub"
  | int32Mul => "Int32Mul"
  | int32LessThan => "Int32LessThan"
  | int32LessThanOrEqual => "Int32LessThanOrEqual"
  | uint32LessThan => "Uint32LessThan"
  | uint32LessThanOrEqual => "Uint32LessThanOrEqual"
  | word64And => "Word64And"
  | word64Or => "Word64Or"
  | word64Xor => "Word64Xor"
  | word64Shl => "Word64Shl"
  | word64Shr => "Word64Shr"
  | word64Sar => "Word64Sar"
  | word64Equal => "Word64Equal"
  | int64Add => "Int64Add"
  | int64Sub => "Int64Sub"
  | int64Mul => "Int64Mul"
  | int64LessThan => "Int64LessThan"
  | int64LessThanOrEqual => "Int64LessThanOrEqual"
  | uint64LessThan => "Uint64LessThan"
  | float64Add => "Float64Add"
  | float64Sub => "Float64Sub"
  | float64Mul => "Float64Mul"
  | float64Div => "Float64Div"
  | float64Equal => "Float64Equal"
  | float64LessThan => "Float64LessThan"
  | float64LessThanOrEqual => "Float64LessThanOrEqual"
  | float64SilenceNaN => "Float64SilenceNaN"
  | changeInt32ToFloat64 => "ChangeInt32ToFloat64"
  | changeInt32ToInt64 => "ChangeInt32ToInt64"
  | changeUint32ToUint64 => "ChangeUint32ToUint64"
  | changeFloat64ToInt32 => "ChangeFloat64ToInt32"
  | truncateInt64ToInt32 => "TruncateInt64ToInt32"
  | bitcastTaggedToWord => "BitcastTaggedToWord"
  | bitcastWordToTagged => "BitcastWordToTagged"
  | loadFramePointer => "LoadFramePointer"
  | loadParentFramePointer => "LoadParentFramePointer"
  | loadStackPointer => "LoadStackPointer"

end MachineOp

end SeaOfNodes
