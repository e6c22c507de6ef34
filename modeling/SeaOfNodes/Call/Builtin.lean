import SeaOfNodes.Call.Runtime
import SeaOfNodes.Heap.Classification

namespace SeaOfNodes

inductive Builtin where
  | runtimeEntry (results : UInt8)
  | arrayNoArgument (kind : ElementsKind)
  | arraySingleArgument (kind : ElementsKind)
  | arrayNArguments
  | fastNewSloppyArguments
  | fastNewStrictArguments
  | fastNewRestParameter
  | fastNewFunctionContext (scope : Scope)
deriving DecidableEq, Repr

structure StubInterface where
  name : String
  registers : UInt32
  hasContext : Bool
deriving DecidableEq, Repr

namespace Builtin

def interface : Builtin → StubInterface
  | runtimeEntry _ => ⟨"CEntry", 0, false⟩
  -- Function, allocation site and argument count.
  | arrayNoArgument _ | arraySingleArgument _ | arrayNArguments => ⟨"ArrayConstructor", 3, true⟩
  | fastNewSloppyArguments => ⟨"FastNewSloppyArguments", 1, true⟩
  | fastNewStrictArguments => ⟨"FastNewStrictArguments", 1, true⟩
  | fastNewRestParameter => ⟨"FastNewRestParameter", 1, true⟩
  -- Closure and slot count.
  | fastNewFunctionContext _ => ⟨"FastNewFunctionContext", 2, true⟩

def text : Builtin → String
  | runtimeEntry results => s!"CEntry \x7b result_size: {results} \x7d"
  | arrayNoArgument kind => s!"ArrayNoArgumentConstructor({kind.name})"
  | arraySingleArgument kind => s!"ArraySingleArgumentConstructor({kind.name})"
  | arrayNArguments => "ArrayNArgumentsConstructor"
  | fastNewSloppyArguments => "FastNewSloppyArguments"
  | fastNewStrictArguments => "FastNewStrictArguments"
  | fastNewRestParameter => "FastNewRestParameter"
  | fastNewFunctionContext scope => s!"FastNewFunctionContext({scope.name})"

end Builtin

inductive ExternalReference where
  | runtimeFunction (function : RuntimeFunction)
  | rootsArrayStart
  | address (value : UInt64)
deriving DecidableEq, Repr

def ExternalReference.text : ExternalReference → String
  | .runtimeFunction function => s!"RuntimeFunction({function.name})"
  | .rootsArrayStart => "RootsArrayStart"
  | .address value => s!"CFunction({value})"

end SeaOfNodes
