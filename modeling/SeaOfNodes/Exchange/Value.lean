import SeaOfNodes.Exchange.Spelling
import SeaOfNodes.Value.ValueType

/-! Machine types, kinds, flag sets and value types as plain data. -/

namespace SeaOfNodes.Exchange

open Spelled

def machineType (type : MachineType) : Datum := .list [spell type.representation, spell type.semantic]

def readMachineType (data : Datum) : Reader MachineType := do
  return ⟨← readSpelled (data.item 0), ← readSpelled (data.item 1)⟩

def kinds (kinds : Kinds) : Datum := .nat kinds.toNat

-- Unknown bits are dropped.
def readKinds (data : Datum) : Reader Kinds := (BitVec.ofNat 18 ·.toNat) <$> data.readWord

def properties (properties : Properties) : Datum := .nat properties.toNat

def readProperties (data : Datum) : Reader Properties := (BitVec.ofNat 7 ·.toNat) <$> data.readWord

def callFlags (flags : CallFlags) : Datum :=
  .nat (flags.needsFrameState.toNat + 2 * flags.supportsTailCalls.toNat + 4 * flags.needsContext.toNat)

def readCallFlags (data : Datum) : Reader CallFlags := do
  let bits := (← data.readWord).toNat
  return ⟨bits.testBit 0, bits.testBit 1, bits.testBit 2⟩

def valueType (type : ValueType) : Datum :=
  if type = .any then .null
  else
    .list [kinds type.kinds, .ofOption (fun i => .list [.double i.min, .double i.max]) type.range,
      .ofOption .object type.object]

def namedTypes : List (String × ValueType) :=
  [("none", .bottom), ("any", .any), ("number", .number), ("signed_small", .signedSmall),
   ("signed32", .signed32), ("boolean", .boolean), ("undefined", .undefined), ("string", .string),
   ("receiver", .receiver), ("proxy", .proxy), ("internal", .internal), ("machine", .machine),
   ("default", .any)]

def readValueType : Datum → Reader ValueType
  | .list [.text "bits", bits] => .ofKinds <$> readKinds bits
  | .list [.text "range", low, high] => do
    Reader.ofFaulty (ValueType.ofRange (← low.readDouble) (← high.readDouble))
  | .list [.text "constant", value] => .ofNumber <$> value.readDouble
  | .list [.text "heap_constant", object, bits] => do
    return .ofObject (← object.readObject) (← readKinds bits)
  | .list [.text "union", left, right] => do
    return (← readValueType left).union (← readValueType right)
  | .list (.text name :: _) => Reader.ofOption (namedTypes.lookup name)
  | _ => .malformed

end SeaOfNodes.Exchange
