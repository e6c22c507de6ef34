import SeaOfNodes.Exchange.Operator

/-! Heap objects as plain data, and the building of a snapshot from a list of them. -/

namespace SeaOfNodes.Exchange

open Spelled

def taggedValue : TaggedValue → Datum
  | .small value => .list [.text "smi", .int32 value]
  | .object ref => .list [.text "obj", .object ref]

def readTaggedValue (data : Datum) : Reader TaggedValue := do
  match ← (data.item 0).readText with
  | "smi" => .small <$> (data.item 1).readInt32
  | "obj" => .object <$> (data.item 1).readObject
  | _ => .malformed

def readHoley {α : Type} (read : Datum → Reader α) (data : Datum) : Reader (List (Option α)) :=
  data.readList (Datum.readOption read)

def readHeapObject (data : Datum) : Reader HeapObject := do
  let ref (index : Nat) := (data.item index).readObject
  let optional (index : Nat) := (data.item index).readOption Datum.readObject
  match ← (data.item 0).readText with
  | "Map" => .map <$> readMap (data.item 1)
  | "Function" => return .function ⟨← ref 1, ← optional 2, ← optional 3, ← (data.item 4).readBool⟩
  | "SharedFunctionInfo" =>
    return .sharedFunctionInfo
      ⟨← readSpelled (data.item 1), ← (data.item 2).readWord, ← (data.item 3).readBool,
       ← (data.item 4).readWord⟩
  | "AllocationSite" =>
    return .allocationSite
      ⟨← optional 1, ← readSpelled (data.item 2), ← readSpelled (data.item 3), ← (data.item 4).readBool⟩
  | "FeedbackVector" => .feedbackVector <$> readHoley Datum.readObject (data.item 1)
  | "JSObject" =>
    return .jsObject
      ⟨← ref 1, ← ref 2, ← (data.item 3).readWord, ← (data.item 4).readList readTaggedValue,
       ← (data.item 5).readOption readTaggedValue⟩
  | "JSRegExp" =>
    return .jsRegExp
      ⟨← ref 1, ← ref 2, ← ref 3, ← ref 4, ← ref 5, ← readTaggedValue (data.item 6),
       ← readTaggedValue (data.item 7)⟩
  | "FixedArray" => return .fixedArray (← ref 1) (← readHoley readTaggedValue (data.item 2))
  | "FixedDoubleArray" => .fixedDoubleArray <$> readHoley Datum.readDouble (data.item 1)
  | "HeapNumber" => .heapNumber <$> (data.item 1).readDouble
  | "ScopeInfo" => return .scopeInfo ⟨← readSpelled (data.item 1), ← (data.item 2).readWord⟩
  | "Oddball" => .oddball <$> readSpelled (data.item 1)
  | "String" => .string <$> (data.item 1).readText
  | "Opaque" => .other <$> readSpelled (data.item 1)
  | "fixed_array" => .fixedArray Root.fixedArrayMap <$> readHoley readTaggedValue (data.item 1)
  | "cow_array" => .fixedArray Root.copyOnWriteArrayMap <$> readHoley readTaggedValue (data.item 1)
  | "array_site" =>
    return .allocationSite ⟨none, ← readSpelled (data.item 1), ← readSpelled (data.item 2), true⟩
  | _ => .malformed

structure NamedSnapshot where
  heap : Snapshot := .initial
  names : List (String × ObjectRef) := Root.named ++ NativeContext.named
  added : List Nat := []

def NamedSnapshot.extend (named : NamedSnapshot) (entry : Datum) : Except (Failure Malformed) NamedSnapshot :=
  match entry with
  | .list [.text "set", target, object] => do
    let ref ← target.readObject.run named.names
    let heap := named.heap.set ref (← (readHeapObject object).run named.names)
    return { named with heap := heap, added := named.added ++ [heap.size] }
  | .list [name, object] => do
    let label ← (name.readOption Datum.readText).run named.names
    let (ref, heap) := named.heap.add (← (readHeapObject object).run named.names)
    return { heap := heap
             names := label.elim named.names fun label => (label, ref) :: named.names
             added := named.added ++ [ref.index.toNat] }
  | _ => .error (.rejected .malformed)

def readSnapshot (entries : Datum) : Except (Failure Malformed) NamedSnapshot :=
  match entries with
  | .null => .ok {}
  | .list entries => entries.foldlM NamedSnapshot.extend {}
  | _ => .error (.rejected .malformed)

def map (info : MapInfo) : Datum :=
  let property (property : Property) : Datum :=
    match property.place with
    | .field representation index =>
      .list [.text property.name, .text "Field", spell representation, .word index]
    | .descriptor =>
      .list [.text property.name, .text "Descriptor", spell FieldRepresentation.tagged, .word 0]
  .record
    [("type", spell info.instanceType), ("size", .word info.instanceSize),
     ("in_object", .word info.inObjectProperties), ("kind", spell info.elementsKind),
     ("flags", .list [.bool info.isDictionary, .bool info.isDeprecated, .bool info.isArrayMap]),
     ("constructor", .ofOption .object info.constructor), ("fields", .ofList property info.properties)]

def contents : HeapObject → Datum
  | .map info => map info
  | .function info =>
    .list [.object info.shared, .ofOption .object info.initialMap, .ofOption .object info.feedbackVector,
      .bool info.isConstructor]
  | .sharedFunctionInfo info =>
    .list [spell info.kind, .word info.formals, .bool info.hasDuplicateParameters, .word info.registers]
  | .allocationSite site =>
    .list [.ofOption .object site.boilerplate, spell site.elementsKind, spell site.generation,
      .bool site.canInlineCall]
  | .feedbackVector slots => .ofList (.ofOption .object) slots
  | .jsObject object =>
    .list [.object object.map, .object object.elements, .word object.outOfObjectProperties,
      .ofList taggedValue object.fields, .ofOption taggedValue object.length]
  | .jsRegExp object =>
    .list [.object object.map, .object object.properties, .object object.elements, .object object.data,
      .object object.source, taggedValue object.flags, taggedValue object.lastIndex]
  | .fixedArray map values => .list [.object map, .ofList (.ofOption taggedValue) values]
  | .fixedDoubleArray values => .list [.null, .ofList (.ofOption .double) values]
  | .heapNumber value => .double value
  | .scopeInfo info => .list [spell info.scope, .word info.contextLength]
  | .oddball kind => spell kind
  | .string value => .text value
  | .other type => spell type

end SeaOfNodes.Exchange
