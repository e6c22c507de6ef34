import SeaOfNodes.Creation.Arguments
import SeaOfNodes.Creation.Context
import SeaOfNodes.Creation.Literal
import SeaOfNodes.Creation.Object

/-! Inline creation. -/

namespace SeaOfNodes.CreationContext

def decideCreation (c : CreationContext) (graph : Graph) (id : NodeId) : Creation → Except Fault Decision
  | .object => c.createObject graph id
  | .arguments kind => c.createArguments graph id kind
  | .array arity site => c.createArray graph id arity site
  | .iterResult => c.createIterResult graph id
  | .keyValueArray => c.createKeyValueArray graph id
  | .literalArray site | .literalObject site => c.createLiteral graph id site.slot
  | .literalRegExp site => c.createLiteralRegExp graph id site.slot
  | .emptyLiteralArray slot => c.createEmptyLiteralArray graph id slot
  | .emptyLiteralObject => c.createEmptyLiteralObject graph id
  | .functionContext slots scope => c.createFunctionContext graph id slots scope
  | .withContext scopeInfo => createWithContext graph id scopeInfo
  | .catchContext name scopeInfo => createCatchContext graph id name scopeInfo
  | .blockContext scopeInfo => c.createBlockContext graph id scopeInfo
  | .generator => c.createGenerator graph id

def decide (c : CreationContext) (graph : Graph) (id : NodeId) : Except Fault Decision := do
  match ← graph.op id with
  | .create request => c.decideCreation graph id request
  | _ => return .decline

def reduce (c : CreationContext) (id : NodeId) : Build Reduction := do
  match ← Build.query fun graph => c.decide graph id with
  | .inline plan => plan.execute c.config.maxObjectSize id
  | .decline => return .unchanged
  | .declineLiteral reason =>
    Build.note (.literalDeclined id reason.message)
    return .unchanged

end SeaOfNodes.CreationContext
