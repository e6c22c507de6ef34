import SeaOfNodes.Creation.Decision

/-! Arrays and their backing stores. -/

namespace SeaOfNodes

def ElementsKind.access (kind : ElementsKind) : ElementAccess :=
  if kind.isDouble then .fixedDoubleArray else .fixedArray kind

def ElementsKind.storeSize (kind : ElementsKind) (capacity : UInt32) : Except Fault UInt32 :=
  if kind.isDouble then Layout.fixedDoubleArraySize capacity else Layout.fixedArraySize capacity

def ElementsKind.hole (kind : ElementsKind) : Constant :=
  if kind.isDouble then .float64 ⟨Layout.holeBits⟩ else .heap Root.theHole

def Region.elements (kind : ElementsKind) (generation : Generation) (values : List Operand) :
    Except Fault Region :=
  let stores := values.zipIdx.map fun (value, index) => Store.element kind.access (UInt32.ofNat index) value
  let length := UInt32.ofNat values.length
  if kind.isDouble then Region.doubleArray length generation stores
  else Region.fixedArray length Root.fixedArrayMap generation stores

def Region.array (map : ObjectRef) (kind : ElementsKind) (generation : Generation) (elements length : Operand) :
    Region :=
  { size := Layout.arraySize
    generation := generation
    type := .ofKinds .array
    stores := Region.objectHeader map elements ++ [.field (.arrayLength kind) length] }

def ValueType.constantLength? (type : ValueType) : Option UInt32 :=
  if type.within .signedSmall && type.min.eq type.max && Double.zero.le type.min then
    some type.min.toUInt32Clamped
  else none

namespace CreationContext

def emptyArray (c : CreationContext) (graph : Graph) (id : NodeId) (length : Option NodeId)
    (kind : ElementsKind) (capacity : UInt32) (generation : Generation) : Except Fault Decision := do
  let kind ←
    match length with
    | some length => do
      pure (if Double.zero.lt (← c.typeOf graph length).max then kind.toHoley else kind)
    | none => pure kind
  match NativeContext.arrayMap? kind with
  | none => return .decline
  | some map =>
    unless c.fits (← kind.storeSize capacity) do return .decline
    let effect ← graph.effectInput id
    let control ← graph.controlInput id
    let holes := List.replicate capacity.toNat (Operand.constant kind.hole)
    let (prepared, elements) ←
      if capacity = 0 then
        pure ([Action.constant (.heap Root.emptyFixedArray)], Operand.heap Root.emptyFixedArray)
      else do
        pure ([.constant kind.hole, .region (← Region.elements kind generation holes)], Operand.made 1)
    let (measured, length) :=
      match length with
      | some length => ([], Operand.node length)
      | none => ([Action.constant (.number (.ofInt 0))], Operand.number 0)
    return .inline
      { effect := effect
        control := control
        actions := prepared ++ measured
        last := Region.array map kind generation elements length
        ending := .become }

def elementType (c : CreationContext) (graph : Graph) (kind : ElementsKind) (value : NodeId) (made : Nat) :
    Except Fault ValueType :=
  if graph.size ≤ value && value < graph.size + made then
    .ok (if kind.isSmi then .signedSmall else .number)
  else c.typeOf graph value

def checkedElement (c : CreationContext) (graph : Graph) (kind : ElementsKind) (value : NodeId) (next : Nat) :
    Except Fault (List Action × Operand) := do
  let type ← c.elementType graph kind value next
  if kind.isSmi then
    if type.within .signedSmall then return ([], .node value)
    return ([.node .checkSmi [.node value] .signedSmall], .made next)
  else if kind.isDouble then
    if type.within .number then
      return ([.node .silenceNaN [.node value] .number], .made next)
    return ([.node .checkNumber [.node value] .number, .node .silenceNaN [.made next] .number],
      .made (next + 1))
  else return ([], .node value)

def checkedElements (c : CreationContext) (graph : Graph) (kind : ElementsKind) :
    List NodeId → Nat → Except Fault (List Action × List Operand)
  | [], _ => return ([], [])
  | value :: rest, next => do
    let (checks, element) ← c.checkedElement graph kind value next
    let (further, elements) ← c.checkedElements graph kind rest (next + checks.length)
    return (checks ++ further, element :: elements)

def arrayOf (c : CreationContext) (graph : Graph) (id : NodeId) (values : List NodeId) (kind : ElementsKind)
    (generation : Generation) : Except Fault Decision := do
  match NativeContext.arrayMap? kind with
  | none => return .decline
  | some map =>
    unless c.fits (← kind.storeSize (UInt32.ofNat values.length)) do return .decline
    let effect ← graph.effectInput id
    let control ← graph.controlInput id
    let (checks, elements) ← c.checkedElements graph kind values 0
    let store ← Region.elements kind generation elements
    let length := Constant.number (.ofInt values.length)
    return .inline
      { effect := effect
        control := control
        actions := checks ++ [.region store, .constant length]
        last := Region.array map kind generation (.made checks.length) (.constant length)
        ending := .become }

def preallocatedElements : UInt32 := 4

def createArray (c : CreationContext) (graph : Graph) (id : NodeId) (arity : UInt32) (site : Option ObjectRef) :
    Except Fault Decision := do
  let target ← graph.valueInput id 0
  let newTarget ← graph.valueInput id 1
  if target ≠ newTarget then return .decline
  match site.bind c.heap.allocationSite? with
  | none => return .decline
  | some site =>
    let kind := site.elementsKind
    if !site.canInlineCall || !kind.isFast then return .decline
    let generation := c.generationOf site
    if arity = 0 then c.emptyArray graph id none kind preallocatedElements generation
    else if arity = 1 then
      let length ← graph.valueInput id 2
      let type ← c.typeOf graph length
      -- A single argument that is no number becomes the only element.
      if !type.meets .number then c.arrayOf graph id [length] kind.toObject generation
      else
        match type.constantLength? with
        | some capacity =>
          if capacity ≤ c.config.elementUnrollLimit then
            c.emptyArray graph id (some length) kind capacity generation
          else return .decline
        | none => return .decline
    else if arity ≤ c.config.maxInlineArrayValues then
      c.arrayOf graph id ((← graph.valueInputs id).drop 2) kind generation
    else return .decline

def createEmptyLiteralArray (c : CreationContext) (graph : Graph) (id : NodeId) (slot : UInt32) :
    Except Fault Decision := do
  match (← c.literalFeedback? graph id slot).bind c.heap.allocationSite? with
  | none => return .decline
  | some site =>
    if !site.elementsKind.isFast then return .decline
    c.emptyArray graph id none site.elementsKind 0 (c.generationOf site)

end CreationContext

end SeaOfNodes
