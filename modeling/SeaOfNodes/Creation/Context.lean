import SeaOfNodes.Creation.Decision

/-! Contexts of functions, evals, `with`, `catch` and blocks. -/

namespace SeaOfNodes.CreationContext

def contextRegion (length : UInt32) (map : ObjectRef) (closure previous extension : Operand)
    (slots : List Operand) : Except Fault Region :=
  let header := [closure, previous, extension, .heap NativeContext.object]
  Region.fixedArray length map .young ((header ++ slots).zipIdx.map fun (value, index) => .contextSlot index value)

def undefinedContext (length : UInt32) (map : ObjectRef) (closure previous extension : Operand) :
    Except Fault Region := do
  return { ← contextRegion length map closure previous extension [] with
           fill := .context length (.heap Root.undefined) }

def extensionRegion (scopeInfo : ObjectRef) (extension : Operand) : Region :=
  { size := Layout.contextExtensionSize
    generation := .young
    type := .ofKinds .otherInternal
    stores :=
      [.field .map (.heap Root.contextExtensionMap), .field .contextExtensionScopeInfo (.heap scopeInfo),
       .field .contextExtension extension] }

def createFunctionContext (c : CreationContext) (graph : Graph) (id : NodeId) (slots : UInt32) (scope : Scope) :
    Except Fault Decision := do
  if c.config.functionContextLimit ≤ slots then return .decline
  let map? :=
    match scope with
    | .function => some Root.functionContextMap
    | .eval => some Root.evalContextMap
    | _ => none
  match map? with
  | none => return .decline
  | some map =>
    let length ← checkedAdd slots Layout.minContextSlots
    unless c.fits (← Layout.contextSize length) do return .decline
    match ← graph.contextInput? id with
    | none => return .decline
    | some previous =>
      let closure ← graph.valueInput id 0
      return .inline
        { effect := ← graph.effectInput id
          control := ← graph.controlInput id
          actions := [.constant (.heap Root.theHole)]
          last := ← undefinedContext length map (.node closure) (.node previous) (.heap Root.theHole)
          ending := .become }

def createWithContext (graph : Graph) (id : NodeId) (scopeInfo : ObjectRef) : Except Fault Decision := do
  match ← graph.contextInput? id with
  | none => return .decline
  | some previous =>
    let object ← graph.valueInput id 0
    let closure ← graph.valueInput id 1
    return .inline
      { effect := ← graph.effectInput id
        control := ← graph.controlInput id
        actions := [.region (extensionRegion scopeInfo (.node object))]
        last := ← contextRegion Layout.minContextSlots Root.withContextMap (.node closure) (.node previous)
          (.made 0) []
        ending := .become }

def createCatchContext (graph : Graph) (id : NodeId) (name scopeInfo : ObjectRef) : Except Fault Decision := do
  match ← graph.contextInput? id with
  | none => return .decline
  | some previous =>
    let exception ← graph.valueInput id 0
    let closure ← graph.valueInput id 1
    return .inline
      { effect := ← graph.effectInput id
        control := ← graph.controlInput id
        actions := [.constant (.heap name), .region (extensionRegion scopeInfo (.heap name))]
        last := ← contextRegion (Layout.minContextSlots + 1) Root.catchContextMap (.node closure)
          (.node previous) (.made 1) [.node exception]
        ending := .become }

def createBlockContext (c : CreationContext) (graph : Graph) (id : NodeId) (scopeInfo : ObjectRef) :
    Except Fault Decision := do
  match c.heap.scopeInfo? scopeInfo with
  | none => return .decline
  | some info =>
    let length := info.contextLength
    if c.config.blockContextLimit ≤ length || length < Layout.minContextSlots then return .decline
    match ← graph.contextInput? id with
    | none => return .decline
    | some previous =>
      let closure ← graph.valueInput id 0
      return .inline
        { effect := ← graph.effectInput id
          control := ← graph.controlInput id
          actions := [.constant (.heap scopeInfo)]
          last := ← undefinedContext length Root.blockContextMap (.node closure) (.node previous)
            (.heap scopeInfo)
          ending := .become }

end SeaOfNodes.CreationContext
