namespace SeaOfNodes

inductive Violation where
  | unboundVariable (name : String)
  | labelBoundTwice (label : String)
  | unmergedVariable (label name : String)
  | incompleteMerge (label name : String) (expected found : Nat)
  | boundLabelReentered (label : String)
  | arityMismatch (callee : String) (expected actual : Nat)
  | tailCallUnsupported (callee : String)
  | noCurrentBlock (operation : String)
  | callbacksAlreadyRegistered
  | codeAlreadyGenerated
  | allocationTooLarge (size limit : UInt32)
deriving DecidableEq, Repr

def Violation.message : Violation → String
  | .unboundVariable name => s!"variable {name} read before it was bound"
  | .labelBoundTwice label => s!"label {label} bound twice"
  | .unmergedVariable label name => s!"variable {name} merged with inconsistent values at bound label {label}"
  | .incompleteMerge label name expected found =>
    s!"variable {name} at label {label} has {found} merged values but the label was reached {expected} times"
  | .boundLabelReentered label => s!"label {label} is already bound; only loop labels accept later edges"
  | .arityMismatch callee expected actual =>
    s!"call to {callee} passes {actual} arguments, descriptor declares {expected}"
  | .tailCallUnsupported callee => s!"descriptor {callee} does not support tail calls"
  | .noCurrentBlock operation => s!"{operation} emitted with no current block"
  | .callbacksAlreadyRegistered => "call generation callbacks registered twice"
  | .codeAlreadyGenerated => "code already generated for this assembler"
  | .allocationTooLarge size limit => s!"inline allocation of {size} bytes exceeds {limit}"

end SeaOfNodes
