import SeaOfNodes.Heap.Layout

namespace SeaOfNodes

structure LoweringConfig where
  maxLiteralDepth : UInt32 := 3
  maxLiteralProperties : UInt32 := 252
  elementUnrollLimit : UInt32 := 16
  maxInlineArrayValues : UInt32 := 63384
  maxObjectSize : UInt32 := 507136
  functionContextLimit : UInt32 := 16
  blockContextLimit : UInt32 := 16
  sitePretenuring : Bool := true
deriving DecidableEq, Repr

inductive ConfigError where
  | inlineArrayTooLarge (values limit : UInt32)
  | unrollLimitAboveInlineLimit
deriving DecidableEq, Repr

def ConfigError.message : ConfigError → String
  | .inlineArrayTooLarge values limit => s!"{values} inline array values do not fit a {limit}-byte heap object"
  | .unrollLimitAboveInlineLimit => "element unroll limit exceeds the inline array value limit"

namespace LoweringConfig

def noInlineAllocation : LoweringConfig :=
  { maxLiteralDepth := 0, maxLiteralProperties := 0, elementUnrollLimit := 0, maxInlineArrayValues := 0,
    functionContextLimit := 0, blockContextLimit := 0 }

def largestArray (config : LoweringConfig) : Except Fault UInt32 := do
  let elements ← Layout.fixedArraySize config.maxInlineArrayValues
  checkedAdd (← checkedAdd elements Layout.arraySize) Layout.mementoSize

def validate (config : LoweringConfig) : Except (Failure ConfigError) Unit :=
  match config.largestArray with
  | .error fault => .error (.fault fault)
  | .ok largest =>
    if config.maxObjectSize < largest then
      .error (.rejected (.inlineArrayTooLarge config.maxInlineArrayValues config.maxObjectSize))
    else if config.maxInlineArrayValues < config.elementUnrollLimit && config.maxInlineArrayValues != 0 then
      .error (.rejected .unrollLimitAboveInlineLimit)
    else .ok ()

end LoweringConfig

end SeaOfNodes
