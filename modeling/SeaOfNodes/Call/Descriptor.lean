import SeaOfNodes.Call.Builtin
import SeaOfNodes.Fault
import SeaOfNodes.Operator.Properties
import SeaOfNodes.Value.Machine

/-! Call descriptors: everything that a call site has to know about its callee. -/

namespace SeaOfNodes

inductive CallKind where
  | codeObject | address | jsFunction
deriving DecidableEq, Repr

def CallKind.name : CallKind → String
  | .codeObject => "CodeObject"
  | .address => "Address"
  | .jsFunction => "JsFunction"

structure CallFlags where
  needsFrameState : Bool := false
  supportsTailCalls : Bool := false
  needsContext : Bool := false
deriving DecidableEq, Repr

inductive CallLocation where
  | register (number : UInt8)
  | stackSlot (index : UInt32)
deriving DecidableEq, Repr

structure CallDescriptor where
  kind : CallKind
  returns : List MachineType
  parameters : List MachineType
  registerParameters : UInt32
  jsParameters : UInt32
  properties : Properties
  flags : CallFlags
  name : String
deriving DecidableEq, Repr

namespace CallDescriptor

def parameterCount (d : CallDescriptor) : Nat := d.parameters.length

def returnCount (d : CallDescriptor) : Nat := d.returns.length

def stackParameterCount (d : CallDescriptor) : Nat := d.parameterCount - d.registerParameters.toNat

def inputCount (d : CallDescriptor) : Nat := 1 + d.parameterCount

def contextIndex? (d : CallDescriptor) : Option Nat :=
  if d.flags.needsContext && 0 < d.parameterCount then some (d.parameterCount - 1) else none

def parameterLocation (d : CallDescriptor) (index : Nat) : CallLocation :=
  if index < d.registerParameters.toNat then .register (UInt8.ofNat index)
  else .stackSlot (UInt32.ofNat (index - d.registerParameters.toNat))

def returnLocation (_ : CallDescriptor) (index : Nat) : CallLocation := .register (UInt8.ofNat index)

def text (d : CallDescriptor) : String :=
  s!"{d.name}:{d.kind.name}:r{d.returnCount}s{d.stackParameterCount}i{d.inputCount}"

def runtime (function : RuntimeFunction) (arguments : UInt32) (properties : Properties) (flags : CallFlags) :
    CallDescriptor :=
  { kind := .codeObject
    returns := List.replicate function.resultSize.toNat .anyTagged
    parameters := List.replicate arguments.toNat .anyTagged ++ [.pointer, .int32, .anyTagged]
    registerParameters := 0
    jsParameters := arguments
    properties := properties
    flags := { flags with needsContext := true }
    name := function.name }

-- Most values that a call can return.
def returnLimit : Nat := 0x2000000000000000

def stub (interface : StubInterface) (stack : UInt32) (flags : CallFlags) (properties : Properties)
    (returns : Nat) : Except Fault CallDescriptor := do
  let arguments ← checkedAdd interface.registers stack
  let total ← checkedAdd arguments (if interface.hasContext then 1 else 0)
  require (returns ≤ returnLimit)
  return { kind := .codeObject
           returns := List.replicate returns .anyTagged
           parameters := List.replicate total.toNat .anyTagged
           registerParameters := interface.registers
           jsParameters := stack
           properties := properties
           flags := { flags with needsContext := interface.hasContext }
           name := interface.name }

def builtin (builtin : Builtin) (flags : CallFlags) : Except Fault CallDescriptor :=
  stub builtin.interface 0 flags .none 1

def native (returns : Option MachineType) (parameters : List MachineType) : CallDescriptor :=
  { kind := .address
    returns := returns.toList
    parameters := parameters
    registerParameters := min (UInt32.ofNat parameters.length) 6
    jsParameters := 0
    properties := .none
    flags := {}
    name := "c-call" }

def function (count : UInt32) (flags : CallFlags) : CallDescriptor :=
  { kind := .jsFunction
    returns := [.anyTagged]
    parameters := List.replicate count.toNat .anyTagged ++ [.anyTagged, .int32, .anyTagged]
    registerParameters := 0
    jsParameters := count
    properties := .none
    flags := { flags with needsContext := true, supportsTailCalls := true }
    name := "js-call" }

end CallDescriptor

end SeaOfNodes
