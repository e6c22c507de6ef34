import SeaOfNodes.Assembler.Basic

/-! Words, memory and small integers. -/

namespace SeaOfNodes

namespace Assembler

def int32? (a : Assembler) (id : NodeId) : Option Int32 := (a.graph.node? id).bind Node.int32?

def int64? (a : Assembler) (id : NodeId) : Option Int64 := (a.graph.node? id).bind Node.int64?

def smallShift : Int32 := 32

def small? (a : Assembler) (id : NodeId) : Option Int32 := do
  let node ← a.graph.node? id
  match node.op with
  | .machine .bitcastWordToTagged =>
    let word ← a.int64? (← node.inputs[0]?)
    return (word >>> smallShift.toInt64).toInt32
  | .constant (.number value) =>
    let truncated := value.toInt32Clamped
    guard ((Double.ofInt32 truncated).eq value && !(value.isZero && value.isNegative))
    return truncated
  | _ => none

end Assembler

namespace Assembly

def shiftLeft (value : Int64) (amount : Int32) : Int64 := value <<< amount.toInt64

def shiftRight (value : Int64) (amount : Int32) : Int64 := value >>> amount.toInt64

def machine (op : MachineOp) (inputs : List NodeId) : Assembly NodeId := do
  ofExcept (require (op.valueInputs == inputs.length))
  addNode (.machine op) inputs

def int32Add (left right : NodeId) : Assembly NodeId := do
  match (← get).int32? left, (← get).int32? right with
  | some a, some b => constant (.int32 (a + b))
  | a, b =>
    if b = some 0 then return left
    else if a = some 0 then return right
    else machine .int32Add [left, right]

def wordAdd (left right : NodeId) : Assembly NodeId := do
  match (← get).int64? left, (← get).int64? right with
  | some a, some b => constant (.int64 (a + b))
  | a, b =>
    if b = some 0 then return left
    else if a = some 0 then return right
    else machine .int64Add [left, right]

def wordSub (left right : NodeId) : Assembly NodeId := do
  match (← get).int64? left, (← get).int64? right with
  | some a, some b => constant (.int64 (a - b))
  | _, b => if b = some 0 then return left else machine .int64Sub [left, right]

def wordShiftLeft (value amount : NodeId) : Assembly NodeId := do
  match (← get).int64? value, (← get).int32? amount with
  | some a, some s => constant (.int64 (shiftLeft a s))
  | _, s => if s = some 0 then return value else machine .word64Shl [value, amount]

def wordShiftRight (value amount : NodeId) : Assembly NodeId := do
  match (← get).int64? value, (← get).int32? amount with
  | some a, some s => constant (.int64 (shiftRight a s))
  | _, s => if s = some 0 then return value else machine .word64Sar [value, amount]

def extend (value : NodeId) : Assembly NodeId := do
  match (← get).int32? value with
  | some v => constant (.int64 v.toInt64)
  | none => machine .changeInt32ToInt64 [value]

def truncate (value : NodeId) : Assembly NodeId := do
  match (← get).int64? value with
  | some v => constant (.int32 v.toInt32)
  | none => machine .truncateInt64ToInt32 [value]

def tagSmall (value : NodeId) : Assembly NodeId := do
  let amount ← constant (.int32 Assembler.smallShift)
  machine .bitcastWordToTagged [← wordShiftLeft value amount]

def untagSmall (value : NodeId) : Assembly NodeId := do
  let word ← machine .bitcastTaggedToWord [value]
  let amount ← constant (.int32 Assembler.smallShift)
  wordShiftRight word amount

def smallConstant (value : Int32) : Assembly NodeId := do
  let word ← constant (.int64 (shiftLeft value.toInt64 Assembler.smallShift))
  let id ← addNode (.machine .bitcastWordToTagged) [word]
  ofBuild (Build.change fun graph => graph.setType id (.ofNumber (.ofInt32 value)))
  return id

def load (type : MachineType) (base offset : NodeId) : Assembly NodeId :=
  addEffectNode (.load type) [base, offset] "load"

def atomicLoad (type : MachineType) (base offset : NodeId) : Assembly NodeId :=
  addEffectNode (.atomicLoad type) [base, offset] "atomic_load"

def store (representation : Representation) (barrier : WriteBarrier) (base offset value : NodeId) :
    Assembly NodeId :=
  addEffectNode (.store representation barrier) [base, offset, value] "store"

def atomicStore (representation : Representation) (base offset value : NodeId) : Assembly NodeId :=
  addEffectNode (.atomicStore representation) [base, offset, value] "atomic_store"

def loadRoot (index : RootIndex) : Assembly NodeId := do
  match index.constant? with
  | some object => constant (.heap object)
  | none =>
    let roots ← constant (.external .rootsArrayStart)
    let offset ← constant (.int64 index.offset)
    load .anyTagged roots offset

def storeRoot (index : RootIndex) (value : NodeId) : Assembly NodeId := do
  let roots ← constant (.external .rootsArrayStart)
  let offset ← constant (.int64 index.offset)
  store .tagged .none roots offset value

def retain (value : NodeId) : Assembly NodeId := addEffectNode .retain [value] "retain"

def projection (index : UInt32) (node : NodeId) : Assembly NodeId := addNode (.projection index) [node]

end Assembly

end SeaOfNodes
