import SeaOfNodes.Double.Basic
import SeaOfNodes.Fault
import SeaOfNodes.Heap.ObjectRef

/-! Plain data for exchanging values with other programs. -/

namespace SeaOfNodes

inductive Datum where
  | null
  | bool (value : Bool)
  | int (value : Int)
  | text (value : String)
  | list (items : List Datum)
  | record (fields : List (String × Datum))
deriving Inhabited, Repr

inductive Malformed where
  | malformed
deriving DecidableEq, Repr

abbrev Reader := ReaderT (List (String × ObjectRef)) (Except (Failure Malformed))

namespace Reader

variable {α : Type}

def malformed : Reader α := throw (.rejected .malformed)

def ofOption : Option α → Reader α
  | some value => pure value
  | none => malformed

def ofFaulty : Except Fault α → Reader α
  | .ok value => pure value
  | .error fault => throw (.fault fault)

end Reader

namespace Datum

variable {α : Type}

def ofOption (encode : α → Datum) : Option α → Datum
  | some value => encode value
  | none => null

def ofList (encode : α → Datum) (items : List α) : Datum := list (items.map encode)

def nat (value : Nat) : Datum := int value

def word (value : UInt32) : Datum := int value.toNat

def int32 (value : Int32) : Datum := int value.toInt

def int64 (value : Int64) : Datum := text (toString value.toInt)

def word64 (value : UInt64) : Datum := text (toString value.toNat)

def double (value : Double) : Datum :=
  let digits := Nat.toDigits 16 value.bits.toNat
  text (String.ofList (List.replicate (16 - digits.length) '0' ++ digits))

def object (ref : ObjectRef) : Datum := word ref.index

def item (index : Nat) : Datum → Datum
  | list items => items.getD index null
  | _ => null

def field (name : String) : Datum → Datum
  | record fields => (fields.lookup name).getD null
  | _ => null

def isNull : Datum → Bool
  | null => true
  | _ => false

def items : Datum → Reader (List Datum)
  | list items => pure items
  | _ => .malformed

def readList (read : Datum → Reader α) (data : Datum) : Reader (List α) := do (← data.items).mapM read

def readOption (read : Datum → Reader α) : Datum → Reader (Option α)
  | null => pure none
  | data => some <$> read data

def readBool : Datum → Reader Bool
  | bool value => pure value
  | _ => .malformed

def readText : Datum → Reader String
  | text value => pure value
  | _ => .malformed

def readInt (low high : Int) : Datum → Reader Int
  | int value => if low ≤ value ∧ value ≤ high then pure value else .malformed
  | _ => .malformed

def readNat (data : Datum) : Reader Nat := Int.toNat <$> data.readInt 0 18446744073709551615

def readByte (data : Datum) : Reader UInt8 := (UInt8.ofNat ·.toNat) <$> data.readInt 0 255

def readWord (data : Datum) : Reader UInt32 := (UInt32.ofNat ·.toNat) <$> data.readInt 0 4294967295

def readInt32 (data : Datum) : Reader Int32 := Int32.ofInt <$> data.readInt (-2147483648) 2147483647

def readInt64 (data : Datum) : Reader Int64 := do
  let value ← Reader.ofOption (← data.readText).toInt?
  if -9223372036854775808 ≤ value ∧ value ≤ 9223372036854775807 then pure (Int64.ofInt value) else .malformed

def readWord64 (data : Datum) : Reader UInt64 := do
  let value ← Reader.ofOption (← data.readText).toNat?
  if value < UInt64.size then pure (UInt64.ofNat value) else .malformed

def hexDigit? (c : Char) : Option Nat :=
  if '0' ≤ c ∧ c ≤ '9' then some (c.toNat - 48)
  else if 'a' ≤ c ∧ c ≤ 'f' then some (c.toNat - 87)
  else none

def readDouble (data : Datum) : Reader Double := do
  let digits ← Reader.ofOption ((← data.readText).toList.mapM hexDigit?)
  if digits.length = 16 then
    pure ⟨UInt64.ofNat (digits.foldl (fun total digit => total * 16 + digit) 0)⟩
  else .malformed

def readObject : Datum → Reader ObjectRef
  | text name => do Reader.ofOption ((← read).lookup name)
  | data => ObjectRef.mk <$> data.readWord

end Datum

end SeaOfNodes
