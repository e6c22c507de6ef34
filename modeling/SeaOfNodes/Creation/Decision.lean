import SeaOfNodes.Creation.Config
import SeaOfNodes.Creation.Plan

/-! What the decisions about inline creation have in common. -/

namespace SeaOfNodes

inductive LiteralDecline where
  | deprecatedMap | tooDeep | tooManyProperties | tooLarge | unsupportedElements | slowProperties
  | malformedBoilerplate
deriving DecidableEq, Repr

def LiteralDecline.message : LiteralDecline → String
  | .deprecatedMap => "boilerplate map is deprecated"
  | .tooDeep => "literal nests deeper than the fast literal depth"
  | .tooManyProperties => "literal has more fields and elements than the fast literal budget"
  | .tooLarge => "literal does not fit in a regular heap object"
  | .unsupportedElements => "boilerplate elements are not a fixed array"
  | .slowProperties => "boilerplate keeps properties outside the object"
  | .malformedBoilerplate => "boilerplate is missing from the heap snapshot"

inductive Decision where
  | inline (plan : Plan)
  | decline
  | declineLiteral (reason : LiteralDecline)
deriving DecidableEq, Repr

structure CreationContext where
  heap : Snapshot
  config : LoweringConfig
  feedbackVector : Option ObjectRef := none

namespace CreationContext

def fits (c : CreationContext) (size : UInt32) : Bool := size ≤ c.config.maxObjectSize

def typeOf (c : CreationContext) (graph : Graph) (id : NodeId) : Except Fault ValueType := do
  let node ← graph.node id
  match node.object? with
  | some object => return .ofObject object (c.heap.kindsOf object)
  | none => return node.type

def generationOf (c : CreationContext) (site : AllocationSite) : Generation :=
  if c.config.sitePretenuring then site.generation else .young

def literalVector? (c : CreationContext) (graph : Graph) (id : NodeId) : Except Fault (Option ObjectRef) := do
  let closure ← graph.node (← graph.valueInput id 0)
  let own := do (← c.heap.function? (← closure.object?)).feedbackVector
  return own.or c.feedbackVector

def literalFeedback? (c : CreationContext) (graph : Graph) (id : NodeId) (slot : UInt32) :
    Except Fault (Option ObjectRef) := do
  let vector ← c.literalVector? graph id
  return do (← (← c.heap.feedbackVector? (← vector))[slot.toNat]?)

def instanceType (map : MapInfo) : ValueType := .ofKinds map.instanceType.kinds

end CreationContext

end SeaOfNodes
