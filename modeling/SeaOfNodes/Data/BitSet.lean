namespace SeaOfNodes

structure BitSet where
  words : Array (BitVec 64)
deriving DecidableEq, Repr

namespace BitSet

def empty : BitSet := ⟨#[]⟩

def withCapacity (bits : Nat) : BitSet := ⟨Array.replicate ((bits + 63) / 64) 0#64⟩

-- Words past the end read as zero.
def word (set : BitSet) (index : Nat) : BitVec 64 := set.words.getD index 0#64

def contains (set : BitSet) (index : Nat) : Bool := (set.word (index / 64)).getLsbD (index % 64)

def grow (set : BitSet) (count : Nat) : BitSet :=
  ⟨set.words ++ Array.replicate (count - set.words.size) 0#64⟩

def insertNew (set : BitSet) (index : Nat) : Bool × BitSet :=
  let grown := set.grow (index / 64 + 1)
  let mask := BitVec.twoPow 64 (index % 64)
  (grown.word (index / 64) &&& mask == 0#64, ⟨grown.words.modify (index / 64) (· ||| mask)⟩)

def insert (set : BitSet) (index : Nat) : BitSet := (set.insertNew index).2

def erase (set : BitSet) (index : Nat) : BitSet :=
  ⟨set.words.modify (index / 64) (· &&& ~~~ BitVec.twoPow 64 (index % 64))⟩

def clear (set : BitSet) : BitSet := ⟨set.words.map fun _ => 0#64⟩

def isEmpty (set : BitSet) : Bool := set.words.all (· == 0#64)

def union (set other : BitSet) : BitSet :=
  ⟨(set.grow other.words.size).words.mapIdx fun index word => word ||| other.word index⟩

def bitsOf (word : BitVec 64) : List Nat :=
  if word = 0#64 then [] else word.ctz.toNat :: bitsOf (word &&& (word - 1#64))
termination_by word.toNat
decreasing_by
  have smaller : (word - 1#64).toNat < word.toNat := by bv_omega
  exact BitVec.toNat_and word _ ▸ Nat.lt_of_le_of_lt Nat.and_le_right smaller

def toList (set : BitSet) : List Nat :=
  set.words.toList.zipIdx.flatMap fun (word, index) => (bitsOf word).map (index * 64 + ·)

def count (set : BitSet) : Nat := (set.words.toList.map fun word => word.cpop.toNat).foldr (· + ·) 0

end BitSet

end SeaOfNodes
