import SeaOfNodes.Fault
import SeaOfNodes.Double.Shortest
import SeaOfNodes.Value.Kinds
import SeaOfNodes.Heap.ObjectRef

/-!
What a value can be at run time: a set of kinds, narrowed by an interval for its numbers and by a heap object it is known to be.
-/

namespace SeaOfNodes

structure Interval where
  min : Double
  max : Double
deriving DecidableEq, Repr

structure ValueType where
  kinds : Kinds
  range : Option Interval
  object : Option ObjectRef
deriving DecidableEq, Repr

def smallMin : Double := .ofInt (-1073741824)

def smallMax : Double := .ofInt 1073741823

namespace Interval

def same (a b : Interval) : Bool := a.min.eq b.min && a.max.eq b.max

def inside (a b : Interval) : Bool := b.min.le a.min && a.max.le b.max

def overlaps (a b : Interval) : Bool := b.min.le a.max && a.min.le b.max

def hull (a b : Interval) : Interval := ⟨a.min.min b.min, a.max.max b.max⟩

def kinds (i : Interval) : Kinds :=
  if i.inside ⟨smallMin, smallMax⟩ then .signedSmall
  else if i.inside ⟨.ofInt (-2147483648), .ofInt 2147483647⟩ then .signed32
  else if i.inside ⟨.zero, .ofInt 4294967295⟩ then Kinds.integral32.without .otherSigned32
  else .plainNumber

end Interval

namespace ValueType

def ofKinds (kinds : Kinds) : ValueType := ⟨kinds, none, none⟩

def bottom : ValueType := ofKinds .none
def any : ValueType := ofKinds .any
def number : ValueType := ofKinds .number
def signedSmall : ValueType := ofKinds .signedSmall
def signed32 : ValueType := ofKinds .signed32
def boolean : ValueType := ofKinds .boolean
def undefined : ValueType := ofKinds .undefined
def string : ValueType := ofKinds .string
def receiver : ValueType := ofKinds .receiver
def proxy : ValueType := ofKinds .proxy
def internal : ValueType := ofKinds .internal
def machine : ValueType := ofKinds .machine

instance : Inhabited ValueType := ⟨any⟩

def ofInterval (i : Interval) : ValueType := ⟨i.kinds, some i, none⟩

def ofRange (min max : Double) : Except Fault ValueType :=
  if min.le max then .ok (ofInterval ⟨min, max⟩) else .error .assertion

def ofNumber (value : Double) : ValueType :=
  if value.isNaN then ofKinds .nan
  else if value.isZero && value.isNegative then ofKinds .minusZero
  else if value.isIntegral then ofInterval ⟨value, value⟩
  else ofKinds .otherNumber

def ofObject (object : ObjectRef) (kinds : Kinds) : ValueType := ⟨kinds, none, some object⟩

def isBottom (a : ValueType) : Bool := a.kinds == .none

def same (a b : ValueType) : Bool :=
  a.kinds == b.kinds && a.object == b.object &&
    match a.range, b.range with
    | none, none => true
    | some mine, some theirs => mine.same theirs
    | _, _ => false

def within (a b : ValueType) : Bool :=
  a.kinds.within b.kinds && (b.object.isNone || a.object == b.object) &&
    match a.range, b.range with
    | _, none => true
    | some mine, some theirs => mine.inside theirs
    | none, some _ => a.isBottom

def meets (a b : ValueType) : Bool :=
  a.kinds.meets b.kinds &&
    (match a.object, b.object with
     | some mine, some theirs => mine == theirs
     | _, _ => true) &&
    match a.range, b.range with
    | some mine, some theirs => mine.overlaps theirs || a.kinds.meets (b.kinds.without .integral32)
    | _, _ => true

def union (a b : ValueType) : ValueType :=
  { kinds := a.kinds ||| b.kinds
    range :=
      match a.range, b.range with
      | some mine, some theirs => some (mine.hull theirs)
      | some mine, none => if b.kinds.meets .number then none else some mine
      | none, some theirs => if a.kinds.meets .number then none else some theirs
      | none, none => none
    object := if a.object == b.object then a.object else none }

def min (a : ValueType) : Double :=
  match a.range with
  | some i => i.min
  | none =>
    let numeric := a.kinds &&& .number
    if numeric.within .signedSmall then smallMin
    else if numeric.within .signed32 then .ofInt (-2147483648)
    else if numeric.within .otherUnsigned32 then .ofInt 2147483648
    else .negInfinity

def max (a : ValueType) : Double :=
  match a.range with
  | some i => i.max
  | none =>
    let numeric := a.kinds &&& .number
    if numeric.within .signedSmall then smallMax
    else if numeric.within .signed32 then .ofInt 2147483647
    else if numeric.within .integral32 then .ofInt 4294967295
    else .posInfinity

def text (a : ValueType) : String :=
  if a.kinds == .any then "Any"
  else if a.isBottom then "None"
  else
    match a.object, a.range with
    | some object, _ => s!"HeapConstant({object.text})"
    | none, some i => s!"Range({i.min.text}, {i.max.text})"
    | none, none => a.kinds.text

end ValueType

end SeaOfNodes
