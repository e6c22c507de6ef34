import SeaOfNodes.Fault

/-! Flat stores addressed by number. -/

namespace SeaOfNodes

abbrev Handle := Nat

namespace Handle

def invalid : Handle := 4294967295

def isValid (handle : Handle) : Bool := handle != invalid

def text (handle : Handle) : String := if handle.isValid then s!"#{handle}" else "#-"

end Handle

def storeSpan : Nat := 0x7FFFFFFFFFFFFFFF

def roomFor (count bytes : Nat) : Except Fault Unit := require (count * bytes ≤ storeSpan)

structure Pool (α : Type) where
  items : Array α
deriving Repr

namespace Pool

variable {α : Type}

def empty : Pool α := ⟨#[]⟩

def size (pool : Pool α) : Nat := pool.items.size

def isEmpty (pool : Pool α) : Bool := pool.items.isEmpty

def nextId (pool : Pool α) : Nat := pool.items.size

def alloc (pool : Pool α) (item : α) : Nat × Pool α := (pool.nextId, ⟨pool.items.push item⟩)

def contains (pool : Pool α) (id : Nat) : Bool := id < pool.items.size

def get? (pool : Pool α) (id : Nat) : Option α := pool.items[id]?

def get (pool : Pool α) (id : Nat) : Except Fault α := present (pool.get? id)

def modify (pool : Pool α) (id : Nat) (change : α → α) : Pool α := ⟨pool.items.modify id change⟩

def set (pool : Pool α) (id : Nat) (item : α) : Except Fault (Pool α) :=
  if pool.contains id then .ok (pool.modify id fun _ => item) else .error .assertion

def map (pool : Pool α) (change : α → α) : Pool α := ⟨pool.items.map change⟩

def ids (pool : Pool α) : List Nat := List.range pool.items.size

def toList (pool : Pool α) : List α := pool.items.toList

def entries (pool : Pool α) : List (Nat × α) := pool.ids.zip pool.toList

theorem get?_alloc_same (pool : Pool α) (item : α) : (pool.alloc item).2.get? pool.nextId = some item := by
  simp [alloc, get?, nextId]

theorem get?_alloc_before (pool : Pool α) (item old : α) (id : Nat) (read : pool.get? id = some old) :
    (pool.alloc item).2.get? id = some old := by
  have bound : id < pool.items.size := by
    by_cases inside : id < pool.items.size
    · exact inside
    · simp [get?, Array.getElem?_eq_none (Nat.le_of_not_gt inside)] at read
  simpa [alloc, get?, Array.getElem?_push_lt bound, Array.getElem?_eq_getElem bound] using read

theorem get?_modify_same (pool : Pool α) (id : Nat) (change : α → α) :
    (pool.modify id change).get? id = (pool.get? id).map change := by
  simp [modify, get?, Array.getElem?_modify]

theorem get?_modify_other (pool : Pool α) (id other : Nat) (change : α → α) (different : other ≠ id) :
    (pool.modify id change).get? other = pool.get? other := by
  simp [modify, get?, Array.getElem?_modify, Ne.symm different]

end Pool

structure SideTable (α : Type) where
  values : Array α
deriving Repr

namespace SideTable

variable {α : Type} [Inhabited α]

def empty : SideTable α := ⟨#[]⟩

def withSize (count : Nat) : SideTable α := ⟨Array.replicate count default⟩

def size (table : SideTable α) : Nat := table.values.size

def isEmpty (table : SideTable α) : Bool := table.values.isEmpty

def get? (table : SideTable α) (id : Nat) : Option α := table.values[id]?

def get (table : SideTable α) (id : Nat) : Except Fault α := present (table.get? id)

def read (table : SideTable α) (id : Nat) : α := table.values.getD id default

def update (table : SideTable α) (id : Nat) (change : α → α) : SideTable α :=
  ⟨(table.values ++ Array.replicate (id + 1 - table.values.size) default).modify id change⟩

def set (table : SideTable α) (id : Nat) (value : α) : SideTable α := table.update id fun _ => value

def entries (table : SideTable α) : List (Nat × α) := (List.range table.values.size).zip table.values.toList

theorem read_update (table : SideTable α) (id other : Nat) (change : α → α) :
    (table.update id change).read other = if other = id then change (table.read id) else table.read other := by
  have grown (index : Nat) :
      (table.values ++ Array.replicate (id + 1 - table.values.size) default).getD index default
        = table.values.getD index default := by
    simp only [Array.getD_eq_getD_getElem?, Array.getElem?_append, Array.getElem?_replicate]
    by_cases inside : index < table.values.size
    · simp [inside]
    · simp only [inside, if_false, Array.getElem?_eq_none (Nat.le_of_not_gt inside), Option.getD_none]
      split <;> simp
  by_cases same : other = id
  · subst same
    have inside : other < (table.values ++ Array.replicate (other + 1 - table.values.size) default).size := by
      rw [Array.size_append, Array.size_replicate]; omega
    have here := grown other
    simp only [read, update, if_true]
    rw [← here]
    simp only [Array.getD_eq_getD_getElem?, Array.getElem?_modify, if_true,
      Array.getElem?_eq_getElem inside, Option.map_some, Option.getD_some]
  · have here := grown other
    simp only [read, update, if_neg same]
    rw [← here]
    simp only [Array.getD_eq_getD_getElem?, Array.getElem?_modify, if_neg (Ne.symm same)]

end SideTable

end SeaOfNodes
