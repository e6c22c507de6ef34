import SeaOfNodes.Violation

/-! How a computation can stop for good. -/

namespace SeaOfNodes

inductive Fault where
  | overflow
  | assertion
  | fatal (violation : Violation)
  | endless
deriving DecidableEq, Repr

inductive Failure (ε : Type) where
  | fault (cause : Fault)
  | rejected (reason : ε)
deriving Repr

def checkedAdd (a b : UInt32) : Except Fault UInt32 :=
  if a.toNat + b.toNat < UInt32.size then .ok (a + b) else .error .overflow

def checkedSub (a b : UInt32) : Except Fault UInt32 :=
  if b ≤ a then .ok (a - b) else .error .overflow

def checkedMul (a b : UInt32) : Except Fault UInt32 :=
  if a.toNat * b.toNat < UInt32.size then .ok (a * b) else .error .overflow

theorem checkedAdd_eq_ok {a b c : UInt32} : checkedAdd a b = .ok c ↔ c.toNat = a.toNat + b.toNat := by
  have bound := c.toNat_lt_size
  unfold checkedAdd
  split
  · rename_i fits
    have total : (a + b).toNat = a.toNat + b.toNat := by
      rw [UInt32.toNat_add]; exact Nat.mod_eq_of_lt fits
    constructor
    · intro same; cases same; exact total
    · intro same; congr 1; exact UInt32.toNat_inj.mp (total.trans same.symm)
  · constructor
    · intro impossible; cases impossible
    · intro same; omega

theorem checkedSub_eq_ok {a b c : UInt32} : checkedSub a b = .ok c ↔ a.toNat = c.toNat + b.toNat := by
  unfold checkedSub
  split
  · rename_i below
    have difference := UInt32.toNat_sub_of_le a b below
    have order := UInt32.le_iff_toNat_le.mp below
    constructor
    · intro same; cases same; omega
    · intro same; congr 1; exact UInt32.toNat_inj.mp (by omega)
  · rename_i above
    rw [UInt32.le_iff_toNat_le] at above
    constructor
    · intro impossible; cases impossible
    · intro same; omega

theorem checkedMul_eq_ok {a b c : UInt32} : checkedMul a b = .ok c ↔ c.toNat = a.toNat * b.toNat := by
  have bound := c.toNat_lt_size
  unfold checkedMul
  split
  · rename_i fits
    have product : (a * b).toNat = a.toNat * b.toNat := by
      rw [UInt32.toNat_mul]; exact Nat.mod_eq_of_lt fits
    constructor
    · intro same; cases same; exact product
    · intro same; congr 1; exact UInt32.toNat_inj.mp (product.trans same.symm)
  · constructor
    · intro impossible; cases impossible
    · intro same; omega

def require (condition : Bool) : Except Fault Unit :=
  if condition then .ok () else .error .assertion

def present {α : Type} : Option α → Except Fault α
  | some value => .ok value
  | none => .error .assertion

end SeaOfNodes
