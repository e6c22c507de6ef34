import SeaOfNodes.Proofs.Creation.Memory

/-! The tree that a boilerplate unfolds to, and trees as they stand in memory. -/

namespace SeaOfNodes

-- What a word comes to when all that it refers to is followed.
inductive Tree where
  | constant (value : Constant)
  | double (value : Option Double)
  | object (words : List Tree)

def Tree.heap (object : ObjectRef) : Tree := .constant (.heap object)

def Tree.number (value : Int) : Tree := .constant (.number (.ofInt value))

def Double.element? (value : Double) : Option Double := if value = ⟨Layout.holeBits⟩ then none else some value

namespace CreationContext

def fieldOf? (properties : List Property) (index : UInt32) : Option FieldRepresentation :=
  properties.foldl (fun last property =>
    match property.place with
    | .field representation place => if place = index then some representation else last
    | .descriptor => last) none

section

variable (c : CreationContext) (nested : ObjectRef → Option Tree)

def unfoldElement (value : TaggedValue) : Option Tree :=
  match c.nestedLiteral? value with
  | some inner => nested inner
  | none => some (.constant (c.slotConstant value))

def unfoldField (representation : FieldRepresentation) (value : TaggedValue) : Option Tree :=
  match c.nestedLiteral? value with
  | some inner => nested inner
  | none =>
    if representation = .double then
      (c.doubleField? value).map fun number =>
        .object [.heap Root.mutableHeapNumberMap, .constant (.float64 number)]
    else if representation = .smi ∧ value = .object Root.uninitialized then some (.number 0)
    else some (.constant (c.slotConstant value))

def unfoldSlot (properties : List Property) (fields : List TaggedValue) (index : UInt32) : Option Tree :=
  match fieldOf? properties index with
  | some representation => do c.unfoldField nested representation (← fields[index.toNat]?)
  | none => some (.heap Root.onePointerFillerMap)

def unfoldElements (elements : ObjectRef) : Option Tree :=
  match c.heap.get? elements with
  | some (.fixedArray map values) =>
    if values = [] ∨ map = Root.copyOnWriteArrayMap then some (.heap elements)
    else do
      let words ← values.mapM fun value => value.elim (some (.heap Root.theHole)) (c.unfoldElement nested)
      return .object (.heap map :: .number values.length :: words)
  | some (.fixedDoubleArray values) =>
    if values = [] then some (.heap elements)
    else some (.object (.heap Root.fixedDoubleArrayMap :: .number values.length :: values.map .double))
  | _ => none

def unfoldLength (map : MapInfo) (object : PlainObject) : List Tree :=
  if map.isArrayMap then
    [match object.length with
      | some length => .constant (c.slotConstant length)
      | none => .number (c.elementCount object.elements)]
  else []

def unfoldObject (boilerplate : ObjectRef) : Option Tree := do
  let object ← c.heap.plainObject? boilerplate
  let map ← c.heap.map? object.map
  let elements ← c.unfoldElements nested object.elements
  let slots ← ((List.range map.inObjectProperties.toNat).map UInt32.ofNat).mapM
    (c.unfoldSlot nested map.properties object.fields)
  return .object (.heap object.map :: .heap Root.emptyFixedArray :: elements :: (c.unfoldLength map object ++ slots))

end

def unfolding (c : CreationContext) : Nat → ObjectRef → Option Tree
  | 0, _ => none
  | depth + 1, boilerplate => c.unfoldObject (c.unfolding depth) boilerplate

-- No store of doubles that is copied with a boilerplate holds a number that is read as a hole.
def Solid (c : CreationContext) (boilerplate : ObjectRef) : Prop :=
  ∀ inner object values, Relation.ReflTransGen c.Copies boilerplate inner → c.heap.plainObject? inner = some object →
    c.heap.get? object.elements = some (.fixedDoubleArray values) → some ⟨Layout.holeBits⟩ ∉ values

end CreationContext

-- A derivation lists the objects that it visits, once for every time that it does.
mutual
inductive Stands (objects : List (List (Option Word))) : Tree → Word → List Nat → Prop where
  | constant (value : Constant) : Stands objects (.constant value) (.constant value) []
  | double (value : Double) : Stands objects (.double value.element?) (.constant (.float64 value)) []
  | object (address : Nat) (trees : List Tree) (words : List Word) (visited : List Nat)
      (read : objects[address]? = some (words.map some)) (contents : StandAll objects trees words visited) :
      Stands objects (.object trees) (.address address) (address :: visited)
inductive StandAll (objects : List (List (Option Word))) : List Tree → List Word → List Nat → Prop where
  | nil : StandAll objects [] [] []
  | cons (tree : Tree) (trees : List Tree) (word : Word) (words : List Word) (first rest : List Nat)
      (here : Stands objects tree word first) (there : StandAll objects trees words rest) :
      StandAll objects (tree :: trees) (word :: words) (first ++ rest)
end

mutual
theorem stands_grow {old new : List (List (Option Word))} (grown : old <+: new) {tree : Tree} {word : Word} {visited : List Nat}
    (stands : Stands old tree word visited) : Stands new tree word visited := by
  cases stands with
  | constant value => exact .constant value
  | double value => exact .double value
  | object address trees words visited read contents =>
    refine .object address trees words visited ?_ (stand_all_grow grown contents)
    have inside := (List.getElem?_eq_some_iff.mp read).1
    obtain ⟨more, rfl⟩ := grown
    rw [List.getElem?_append_left inside, read]

theorem stand_all_grow {old new : List (List (Option Word))} (grown : old <+: new) {trees : List Tree} {words : List Word}
    {visited : List Nat} (stand : StandAll old trees words visited) : StandAll new trees words visited := by
  cases stand with
  | nil => exact .nil
  | cons tree trees word words first rest here there =>
    exact .cons tree trees word words first rest (stands_grow grown here) (stand_all_grow grown there)
end

theorem stand_all_append {objects : List (List (Option Word))} {trees others : List Tree} {words further : List Word}
    {visited later : List Nat} (first : StandAll objects trees words visited) (second : StandAll objects others further later) :
    StandAll objects (trees ++ others) (words ++ further) (visited ++ later) := by
  induction trees generalizing words visited with
  | nil =>
    cases first
    exact second
  | cons tree trees ih =>
    cases first with
    | cons _ _ word words here there stands rest =>
      rw [List.append_assoc]
      exact .cons tree _ word _ here _ stands (ih rest)

end SeaOfNodes
