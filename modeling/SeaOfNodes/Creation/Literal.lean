import SeaOfNodes.Creation.Array

/-! Array, object and regular expression literals. -/

namespace SeaOfNodes.CreationContext

/-! Checking a boilerplate. -/

def spend : Nat → Except LiteralDecline Nat
  | 0 => .error .tooManyProperties
  | budget + 1 => .ok budget

def nestedLiteral? (c : CreationContext) (value : TaggedValue) : Option ObjectRef :=
  value.object?.filter fun object => (c.heap.plainObject? object).isSome

def checkNested (c : CreationContext) (nested : ObjectRef → Nat → Except LiteralDecline Nat)
    (value : TaggedValue) (budget : Nat) : Except LiteralDecline Nat :=
  match c.nestedLiteral? value with
  | some object => nested object budget
  | none => .ok budget

def fitsElements (c : CreationContext) (length : Nat) : Bool :=
  Layout.fixedArrayHeader.toNat + length * Layout.slotSize.toNat ≤ c.config.maxObjectSize.toNat

def checkElements (c : CreationContext) (nested : ObjectRef → Nat → Except LiteralDecline Nat)
    (elements : ObjectRef) (budget : Nat) : Except LiteralDecline Nat :=
  match c.heap.get? elements with
  | some (.fixedArray map values) =>
    if values.isEmpty || map = Root.copyOnWriteArrayMap then .ok budget
    else if c.fitsElements values.length then
      values.reduceOption.foldlM (fun budget value => do c.checkNested nested value (← spend budget)) budget
    else .error .tooLarge
  | some (.fixedDoubleArray values) => if c.fitsElements values.length then .ok budget else .error .tooLarge
  | _ => .error .unsupportedElements

def doubleField? (c : CreationContext) : TaggedValue → Option Double
  | .small value => some (.ofInt32 value)
  | .object ref => c.heap.heapNumber? ref

def checkField (c : CreationContext) (nested : ObjectRef → Nat → Except LiteralDecline Nat) (map : MapInfo)
    (fields : List TaggedValue) (budget : Nat) (property : Property) : Except LiteralDecline Nat :=
  match property.place with
  | .descriptor => .ok budget
  | .field representation index => do
    let budget ← spend budget
    if map.inObjectProperties ≤ index then throw .slowProperties
    match fields[index.toNat]? with
    | none => throw .malformedBoilerplate
    | some value =>
      if representation = .double && (c.nestedLiteral? value).isNone && (c.doubleField? value).isNone then
        throw .malformedBoilerplate
      c.checkNested nested value budget

def checkObject (c : CreationContext) (nested : ObjectRef → Nat → Except LiteralDecline Nat)
    (boilerplate : ObjectRef) (budget : Nat) : Except LiteralDecline Nat :=
  match c.heap.plainObject? boilerplate with
  | none => .error .malformedBoilerplate
  | some object =>
    match c.heap.map? object.map with
    | none => .error .malformedBoilerplate
    | some map => do
      if map.isDeprecated then throw .deprecatedMap
      unless c.fits map.instanceSize do throw .tooLarge
      let budget ← c.checkElements nested object.elements budget
      if map.isDictionary || object.outOfObjectProperties != 0 then throw .slowProperties
      map.properties.foldlM (c.checkField nested map object.fields) budget

def checkLiteral (c : CreationContext) : Nat → ObjectRef → Nat → Except LiteralDecline Nat
  | 0, _, _ => .error .tooDeep
  | depth + 1, boilerplate, budget => c.checkObject (c.checkLiteral depth) boilerplate budget

/-! Drafting the copy: actions come in the order in which they are carried out. -/

abbrev Draft := StateT (Array Action) (Except (Failure LiteralDecline))

namespace Draft

def decline {α : Type} (reason : LiteralDecline) : Draft α := throw (.rejected reason)

def ofOption {α : Type} (reason : LiteralDecline) : Option α → Draft α
  | some value => pure value
  | none => decline reason

def ofFaulty {α : Type} : Except Fault α → Draft α
  | .ok value => pure value
  | .error fault => throw (.fault fault)

def add (action : Action) : Draft Operand := do
  let actions ← get
  set (actions.push action)
  return .made actions.size

def prepare (value : Constant) : Draft Operand := do
  modify (·.push (.constant value))
  return .constant value

end Draft

def slotConstant (c : CreationContext) : TaggedValue → Constant
  | .small value => .number (.ofInt32 value)
  | .object ref =>
    match c.heap.heapNumber? ref with
    | some number => .number number
    | none => .heap ref

def boxRegion (generation : Generation) (number : Constant) : Region :=
  { size := Layout.heapNumberSize
    generation := generation
    type := .ofKinds .otherInternal
    stores := [.field .map (.heap Root.mutableHeapNumberMap), .field .heapNumberValue (.constant number)] }

def copyField (c : CreationContext) (nested : ObjectRef → Draft Operand) (generation : Generation)
    (representation : FieldRepresentation) (value : TaggedValue) : Draft Operand :=
  match c.nestedLiteral? value with
  | some object => nested object
  | none =>
    if representation = .double then do
      let number := Constant.float64 (← Draft.ofOption .malformedBoilerplate (c.doubleField? value))
      let _ ← Draft.prepare number
      Draft.add (.region (boxRegion generation number))
    else if representation = .smi && value = .object Root.uninitialized then
      Draft.prepare (.number (.ofInt 0))
    else Draft.prepare (c.slotConstant value)

def copyFields (c : CreationContext) (nested : ObjectRef → Draft Operand) (generation : Generation)
    (map : MapInfo) (fields : List TaggedValue) : Draft (List (UInt32 × Operand)) :=
  map.properties.foldlM (fun copied property =>
    match property.place with
    | .descriptor => return copied
    | .field representation index => do
      let value ← Draft.ofOption .malformedBoilerplate fields[index.toNat]?
      let operand ← c.copyField nested generation representation value
      if map.inObjectProperties ≤ index then Draft.decline .slowProperties
      return (index, operand) :: copied) []

def copyElement (c : CreationContext) (nested : ObjectRef → Draft Operand) :
    Option TaggedValue → Draft Operand
  | none => return .heap Root.theHole
  | some value =>
    match c.nestedLiteral? value with
    | some object => nested object
    | none => Draft.prepare (c.slotConstant value)

def copyElements (c : CreationContext) (nested : ObjectRef → Draft Operand) (generation : Generation)
    (map : MapInfo) (elements : ObjectRef) : Draft Operand :=
  match c.heap.get? elements with
  | some (.fixedArray storeMap values) => do
    if values.isEmpty || storeMap = Root.copyOnWriteArrayMap then return ← Draft.prepare (.heap elements)
    let _ ← Draft.prepare (.heap Root.theHole)
    let operands ← values.mapM (c.copyElement nested)
    let stores := operands.zipIdx.map fun (operand, index) =>
      Store.element (.fixedArray map.elementsKind) (UInt32.ofNat index) operand
    let region ← Draft.ofFaulty (Region.fixedArray (UInt32.ofNat values.length) storeMap generation stores)
    Draft.add (.region region)
  | some (.fixedDoubleArray values) => do
    if values.isEmpty then return ← Draft.prepare (.heap elements)
    let operands ← values.mapM fun value => Draft.prepare (.float64 (value.getD ⟨Layout.holeBits⟩))
    let region ← Draft.ofFaulty (Region.elements .packedDouble generation operands)
    Draft.add (.region region)
  | _ => Draft.decline .unsupportedElements

def elementCount (c : CreationContext) (elements : ObjectRef) : Nat :=
  match c.heap.get? elements with
  | some (.fixedArray _ values) => values.length
  | some (.fixedDoubleArray values) => values.length
  | _ => 0

def copyLength (c : CreationContext) (map : MapInfo) (object : PlainObject) : Draft (List Store) := do
  if map.isArrayMap then
    let length :=
      match object.length with
      | some length => c.slotConstant length
      | none => .number (.ofInt (c.elementCount object.elements))
    return [.field (.arrayLength map.elementsKind) (← Draft.prepare length)]
  else return []

def copyObject (c : CreationContext) (nested : ObjectRef → Draft Operand) (generation : Generation)
    (boilerplate : ObjectRef) : Draft Region := do
  let object ← Draft.ofOption .malformedBoilerplate (c.heap.plainObject? boilerplate)
  let map ← Draft.ofOption .malformedBoilerplate (c.heap.map? object.map)
  let fields ← c.copyFields nested generation map object.fields
  let filler ← Draft.prepare (.heap Root.onePointerFillerMap)
  let elements ← c.copyElements nested generation map object.elements
  let length ← c.copyLength map object
  return { size := map.instanceSize
           generation := generation
           type := instanceType map
           stores := Region.objectHeader object.map elements ++ length ++
             Region.allInObject map fun index => (fields.lookup index).getD filler }

def copyLiteral (c : CreationContext) (generation : Generation) : Nat → ObjectRef → Draft Region
  | 0, _ => Draft.decline .tooDeep
  | depth + 1, boilerplate =>
    c.copyObject (fun object => do Draft.add (.region (← c.copyLiteral generation depth object)))
      generation boilerplate

def createLiteral (c : CreationContext) (graph : Graph) (id : NodeId) (slot : UInt32) :
    Except Fault Decision := do
  match (← c.literalFeedback? graph id slot).bind c.heap.allocationSite? with
  | none => return .decline
  | some site =>
    match site.boilerplate with
    | none => return .decline
    | some boilerplate =>
      let depth := c.config.maxLiteralDepth.toNat
      match c.checkLiteral depth boilerplate c.config.maxLiteralProperties.toNat with
      | .error reason => return .declineLiteral reason
      | .ok _ =>
        let effect ← graph.effectInput id
        let control ← graph.controlInput id
        match (c.copyLiteral (c.generationOf site) depth boilerplate).run #[] with
        | .error (.rejected reason) => return .declineLiteral reason
        | .error (.fault fault) => throw fault
        | .ok (last, actions) =>
          return .inline
            { effect := effect
              control := control
              actions := actions.toList
              last := last
              ending := .replace }

def createLiteralRegExp (c : CreationContext) (graph : Graph) (id : NodeId) (slot : UInt32) :
    Except Fault Decision := do
  match (← c.literalFeedback? graph id slot).bind c.heap.regExp? with
  | none => return .decline
  | some regExp =>
    let flags := c.slotConstant regExp.flags
    let lastIndex := c.slotConstant regExp.lastIndex
    return .inline
      { effect := ← graph.effectInput id
        control := ← graph.controlInput id
        actions := [.constant flags, .constant lastIndex]
        last :=
          { size := Layout.regExpSize
            generation := .young
            type := .ofKinds .otherObject
            stores :=
              [.field .map (.heap regExp.map), .field .properties (.heap regExp.properties),
               .field .elements (.heap regExp.elements), .field .regExpData (.heap regExp.data),
               .field .regExpSource (.heap regExp.source), .field .regExpFlags (.constant flags),
               .field .regExpLastIndex (.constant lastIndex)] }
        ending := .replace }

def createEmptyLiteralObject (c : CreationContext) (graph : Graph) (id : NodeId) : Except Fault Decision := do
  match c.heap.map? NativeContext.objectLiteralMap with
  | none => return .decline
  | some map =>
    return .inline
      { effect := ← graph.effectInput id
        control := ← graph.controlInput id
        actions := [.constant (.heap Root.emptyFixedArray)]
        last :=
          { size := map.instanceSize
            generation := .young
            type := instanceType map
            stores := Region.objectHeader NativeContext.objectLiteralMap (.heap Root.emptyFixedArray)
            fill := .inObject map (.heap Root.undefined) }
        ending := .become }

end SeaOfNodes.CreationContext
