import SeaOfNodes.Creation.Decision

/-! Arguments objects and rest parameters. -/

namespace SeaOfNodes.CreationContext

def argumentsFields (kind : ArgumentsKind) (length : Operand) (callee : NodeId) : List Store :=
  match kind with
  | .mapped => [.field .argumentsLength length, .field .argumentsCallee (.node callee)]
  | .unmapped => [.field .argumentsLength length]
  | .rest => [.field (.arrayLength .packed) length]

def argumentsRegion (kind : ArgumentsKind) (map : ObjectRef) (elements length : Operand) (callee : NodeId) :
    Region :=
  { size :=
      match kind with
      | .mapped => Layout.sloppyArgumentsSize
      | .unmapped => Layout.strictArgumentsSize
      | .rest => Layout.arraySize
    generation := .young
    type := .ofKinds (if kind = .rest then .array else .otherObject)
    stores := Region.objectHeader map elements ++ argumentsFields kind length callee }

def outermostArguments (graph : Graph) (id : NodeId) (kind : ArgumentsKind) (shared : SharedInfo) :
    Except Fault Decision := do
  -- Aliased parameters are left to the runtime.
  if kind = .mapped && (shared.hasDuplicateParameters || shared.formals != 0) then return .decline
  let map? :=
    match kind with
    | .mapped => some NativeContext.sloppyArgumentsMap
    | .unmapped => some NativeContext.strictArgumentsMap
    | .rest => NativeContext.arrayMap? .packed
  match map? with
  | none => return .decline
  | some map =>
    let callee ← graph.valueInput id 0
    let skipped := if kind = .mapped then 0 else shared.formals
    return .inline
      { effect := ← graph.effectInput id
        control := Graph.start
        actions :=
          [.node .argumentsFrame [] .machine,
           .node (.argumentsLength skipped (kind = .rest)) [.made 0] .signedSmall,
           .node .newArgumentsElements [.made 0, .made 1] (.ofKinds .otherInternal)]
        last := argumentsRegion kind map (.made 2) (.made 1) callee
        ending := .become }

def argumentsState (graph : Graph) (state : NodeId) : Except Fault NodeId := do
  let outer ← graph.valueInput state FrameStateInput.outer
  match ← graph.op outer with
  | .frameState info => return if info.kind = .argumentsAdaptor then outer else state
  | _ => return state

def recordedArguments? (graph : Graph) (state : NodeId) : Except Fault (Option (List NodeId)) := do
  match ← graph.op state with
  | .frameState info =>
    let parameters ← graph.valueInput state FrameStateInput.parameters
    match ← graph.op parameters with
    | .stateValues count =>
      if count = 0 || count != info.parameterCount then return none
      let values ← graph.valueInputs parameters
      require (1 ≤ values.length)
      return some (values.drop 1)
    | _ => return none
  | _ => return none

def slotStores (first : Nat) (values : List Operand) : Except Fault (List Store) :=
  (values.zipIdx first).mapM fun (value, index) => do
    return .field (← FieldAccess.fixedArraySlot (UInt32.ofNat index)) value

def plainArguments (values : List NodeId) : Except Fault (List Action × Operand) := do
  if values.isEmpty then
    return ([.constant (.heap Root.emptyFixedArray)], .heap Root.emptyFixedArray)
  let stores ← slotStores 0 (values.map .node)
  let region ← Region.fixedArray (UInt32.ofNat values.length) Root.fixedArrayMap .young stores
  return ([.region region], .made 0)

def aliasedSlot (formals index : UInt32) : Except Fault UInt32 := do
  checkedSub (← checkedSub (← checkedAdd Layout.minContextSlots formals) 1) index

def aliasedArguments (arguments : List NodeId) (context : NodeId) (formals : UInt32) :
    Except Fault (List Action × Operand) := do
  let count := UInt32.ofNat arguments.length
  let mapped := min count formals
  let unmappedValue (entry : NodeId × Nat) : Operand :=
    if entry.2 < mapped.toNat then .heap Root.theHole else .node entry.1
  let unmapped ← Region.fixedArray count Root.fixedArrayMap .young
    (← slotStores 0 (arguments.zipIdx.map unmappedValue))
  let slots ← (List.range mapped.toNat).mapM fun index => do
    return Constant.number (.ofUInt32 (← aliasedSlot formals (UInt32.ofNat index)))
  let entries := [Operand.node context, .made 1] ++ slots.map .constant
  let parameterMap ← Region.fixedArray (← checkedAdd mapped 2) Root.sloppyArgumentsElementsMap .young
    (← slotStores 0 entries)
  let actions :=
    [.constant (.heap Root.theHole), .region unmapped] ++ slots.map .constant ++ [.region parameterMap]
  return (actions, .made (actions.length - 1))

def inlinedArguments (c : CreationContext) (graph : Graph) (id : NodeId) (kind : ArgumentsKind)
    (state : NodeId) (shared : SharedInfo) : Except Fault Decision := do
  if kind = .mapped && shared.hasDuplicateParameters then return .decline
  match ← recordedArguments? graph (← argumentsState graph state) with
  | none => return .decline
  | some arguments =>
    let formals := shared.formals
    let count := UInt32.ofNat arguments.length
    -- The larger of the unmapped store and the parameter map.
    let largest ← Layout.fixedArraySize (max count (← checkedAdd (min formals count) 2))
    unless c.fits largest do return .decline
    let callee ← graph.valueInput id 0
    let context? ← graph.contextInput? id
    let effect ← graph.effectInput id
    let finish (map : ObjectRef) (length : Nat) (store : List Action × Operand) : Decision :=
      let measured := Constant.number (.ofInt length)
      .inline
        { effect := effect
          control := Graph.start
          actions := store.1 ++ [.constant measured]
          last := argumentsRegion kind map store.2 (.constant measured) callee
          ending := .become }
    match kind with
    | .mapped =>
      match context? with
      | none => return .decline
      | some context =>
        if arguments.isEmpty || formals = 0 then
          return finish NativeContext.sloppyArgumentsMap arguments.length (← plainArguments arguments)
        else
          return finish NativeContext.fastAliasedArgumentsMap arguments.length
            (← aliasedArguments arguments context formals)
    | .unmapped =>
      return finish NativeContext.strictArgumentsMap arguments.length (← plainArguments arguments)
    | .rest =>
      match NativeContext.arrayMap? .packed with
      | none => return .decline
      | some map =>
        let rest := arguments.drop formals.toNat
        return finish map rest.length (← plainArguments rest)

def createArguments (c : CreationContext) (graph : Graph) (id : NodeId) (kind : ArgumentsKind) :
    Except Fault Decision := do
  match ← graph.frameStateInput? id with
  | none => return .decline
  | some state =>
    match ← graph.op state with
    | .frameState info =>
      match info.sharedInfo.bind c.heap.sharedInfo? with
      | none => return .decline
      | some shared =>
        let outer ← graph.valueInput state FrameStateInput.outer
        match ← graph.op outer with
        | .frameState _ => c.inlinedArguments graph id kind state shared
        | _ => outermostArguments graph id kind shared
    | _ => return .decline

end SeaOfNodes.CreationContext
