import SeaOfNodes.Creation.Decision

/-! Instances of a known constructor, iterator results, key-value pairs and generators. -/

namespace SeaOfNodes.CreationContext

def inlineableMap? (c : CreationContext) (target newTarget : ObjectRef) : Option (ObjectRef × MapInfo) := do
  let function ← c.heap.function? newTarget
  guard function.isConstructor
  let initial ← function.initialMap
  let map ← c.heap.map? initial
  guard (!map.isDictionary && map.constructor = some target)
  return (initial, map)

def createObject (c : CreationContext) (graph : Graph) (id : NodeId) : Except Fault Decision := do
  let target := (← c.typeOf graph (← graph.valueInput id 0)).object
  let newTarget := (← c.typeOf graph (← graph.valueInput id 1)).object
  match target, newTarget with
  | some target, some newTarget =>
    match c.inlineableMap? target newTarget with
    | some (initial, map) =>
      if c.fits map.instanceSize then
        return .inline
          { effect := ← graph.effectInput id
            control := ← graph.controlInput id
            actions := [.constant (.heap Root.emptyFixedArray)]
            last :=
              { size := map.instanceSize
                generation := .young
                type := instanceType map
                stores := Region.objectHeader initial (.heap Root.emptyFixedArray)
                fill := .inObject map (.heap Root.undefined) }
            ending := .become }
      else return .decline
    | none => return .decline
  | _, _ => return .decline

def createIterResult (_ : CreationContext) (graph : Graph) (id : NodeId) : Except Fault Decision := do
  let value ← graph.valueInput id 0
  let done ← graph.valueInput id 1
  return .inline
    { effect := ← graph.effectInput id
      control := Graph.start
      actions := [.constant (.heap Root.emptyFixedArray)]
      last :=
        { size := Layout.iterResultSize
          generation := .young
          type := .ofKinds .otherObject
          stores := Region.objectHeader NativeContext.iteratorResultMap (.heap Root.emptyFixedArray) ++
            [.field .iterResultValue (.node value), .field .iterResultDone (.node done)] }
      ending := .become }

def createKeyValueArray (_ : CreationContext) (graph : Graph) (id : NodeId) : Except Fault Decision := do
  match NativeContext.arrayMap? .packed with
  | none => return .decline
  | some map =>
    let key ← graph.valueInput id 0
    let value ← graph.valueInput id 1
    let effect ← graph.effectInput id
    let access := ElementAccess.fixedArray .packed
    let elements ← Region.fixedArray 2 Root.fixedArrayMap .young
      [.element access 0 (.node key), .element access 1 (.node value)]
    return .inline
      { effect := effect
        control := Graph.start
        actions := [.region elements]
        last :=
          { size := Layout.arraySize
            generation := .young
            type := .ofKinds .array
            stores := Region.objectHeader map (.made 0) ++
              [.field (.arrayLength .packed) (.number 2)] }
        ending := .become }

def registerFile (count : UInt32) : Except Fault (List Action × Operand) := do
  if count = 0 then return ([.constant (.heap Root.emptyFixedArray)], .heap Root.emptyFixedArray)
  let access := ElementAccess.fixedArray .holey
  let stores := (List.range count.toNat).map fun index =>
    Store.element access (UInt32.ofNat index) (.heap Root.theHole)
  let region ← Region.fixedArray count Root.fixedArrayMap .young stores
  return ([.constant (.heap Root.theHole), .region region], .made 1)

def generatorMap? (c : CreationContext) (function : ObjectRef) : Option (ObjectRef × MapInfo × UInt32) := do
  let function ← c.heap.function? function
  let initial ← function.initialMap
  let shared ← c.heap.sharedInfo? function.shared
  let map ← c.heap.map? initial
  guard (map.instanceType = .jsGeneratorObject ∨ map.instanceType = .jsAsyncGeneratorObject)
  return (initial, map, shared.registers)

def createGenerator (c : CreationContext) (graph : Graph) (id : NodeId) : Except Fault Decision := do
  let closure ← graph.valueInput id 0
  let receiver ← graph.valueInput id 1
  match (← c.typeOf graph closure).object.bind c.generatorMap? with
  | none => return .decline
  | some (initial, map, registers) =>
    unless c.fits map.instanceSize do return .decline
    unless c.fits (← Layout.fixedArraySize registers) do return .decline
    match ← graph.contextInput? id with
    | none => return .decline
    | some context =>
      let effect ← graph.effectInput id
      let control ← graph.controlInput id
      let (prepared, file) ← registerFile registers
      let undefined := Operand.heap Root.undefined
      let queue :=
        if map.instanceType = .jsAsyncGeneratorObject then
          [Store.field .asyncGeneratorQueue undefined, .field .asyncGeneratorAwaited undefined]
        else []
      return .inline
        { effect := effect
          control := control
          actions := prepared ++ [.constant (.heap Root.emptyFixedArray)]
          last :=
            { size := map.instanceSize
              generation := .young
              type := instanceType map
              stores := Region.objectHeader initial (.heap Root.emptyFixedArray) ++
                [.field .generatorContext (.node context), .field .generatorFunction (.node closure),
                 .field .generatorReceiver (.node receiver), .field .generatorInput undefined,
                 .field .generatorResumeMode (.number Layout.resumeNext.toInt),
                 .field .generatorContinuation (.number Layout.generatorExecuting.toInt),
                 .field .generatorRegisters file] ++
                queue
              fill := .inObject map undefined }
          ending := .become }

end SeaOfNodes.CreationContext
