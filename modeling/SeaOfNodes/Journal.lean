import SeaOfNodes.Data.Pool
import SeaOfNodes.Operator.Text

/-! Where contract violations and notable events are reported. -/

namespace SeaOfNodes

abbrev NodeId := Handle

inductive Level where
  | error | warning | debug
deriving DecidableEq, Repr

inductive LogEntry where
  | violated (violation : Violation)
  | recorded (violation : Violation)
  | breakpoint (node : NodeId) (op : Operator)
  | generating (name : String) (nodes : Nat)
  | scheduled (name : String) (blocks nodes : Nat)
  | changed (reducer : String) (node : NodeId) (op : Operator)
  | replaced (reducer : String) (node replacement : NodeId)
  | literalDeclined (node : NodeId) (reason : String)
  | creationsLowered (inline calls added : Nat)
deriving DecidableEq, Repr

namespace LogEntry

def level : LogEntry → Level
  | violated _ => .error
  | recorded _ => .warning
  | _ => .debug

def message : LogEntry → String
  | violated violation => s!"contract violation: {violation.message}"
  | recorded violation => s!"contract violation recorded: {violation.message}"
  | breakpoint node op => s!"break on node {node.text} ({op.text})"
  | generating name nodes => s!"generating code for {name} ({nodes} nodes)"
  | scheduled name blocks nodes => s!"{name}: {blocks} blocks, {nodes} scheduled nodes"
  | changed reducer node op => s!"{reducer}: changed {node.text} to {op.text}"
  | replaced reducer node replacement => s!"{reducer}: replaced {node.text} with {replacement.text}"
  | literalDeclined node reason => s!"literal {node.text} stays generic: {reason}"
  | creationsLowered inline calls added =>
    s!"lowered creations: {inline} inline, {calls} calls, {added} nodes added"

end LogEntry

inductive JournalMode where
  | validating | recording | silent
deriving DecidableEq, Repr

structure Journal where
  mode : JournalMode
  violations : Array Violation := #[]
  log : Array LogEntry := #[]
deriving DecidableEq, Repr

namespace Journal

def checks (journal : Journal) : Bool := journal.mode != .silent

def note (journal : Journal) (entry : LogEntry) : Journal := { journal with log := journal.log.push entry }

def report (journal : Journal) (violation : Violation) : Option Fault × Journal :=
  match journal.mode with
  | .validating => (some (.fatal violation), journal.note (.violated violation))
  | .recording =>
    (none, { journal.note (.recorded violation) with violations := journal.violations.push violation })
  | .silent => (none, journal)

def take (journal : Journal) : Array Violation × Journal :=
  (journal.violations, { journal with violations := #[] })

end Journal

end SeaOfNodes
