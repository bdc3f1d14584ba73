import X86Asm.Error

/-!
# Alignment

Addresses are natural numbers below `addressSpace`. Going on to a multiple of an alignment fails
if the address space has none left.
-/

namespace X86Asm

/-- The number of addresses. -/
def addressSpace : Nat := 0x10000000000000000

/-- The least multiple of `a` that is not below `n`. -/
def roundUp (n a : Nat) : Nat := (n + (a - 1)) / a * a

/-- Rounding up does not go below the number. -/
theorem le_roundUp (n : Nat) {a : Nat} (ha : 0 < a) : n ≤ roundUp n a := by
  have := Nat.div_add_mod (n + (a - 1)) a
  have := Nat.mod_lt (n + (a - 1)) ha
  rw [roundUp, Nat.mul_comm]
  omega

/-- Rounding up leads to a multiple. -/
theorem dvd_roundUp (n a : Nat) : a ∣ roundUp n a := Nat.dvd_mul_left _ _

/-- No multiple in between is left out. -/
theorem roundUp_le {n a m : Nat} (ha : 0 < a) (h : n ≤ m) (hm : a ∣ m) : roundUp n a ≤ m := by
  obtain ⟨k, rfl⟩ := hm
  rw [roundUp, Nat.mul_comm]
  apply Nat.mul_le_mul_left
  apply Nat.le_of_lt_succ
  rw [Nat.div_lt_iff_lt_mul ha, Nat.succ_mul, Nat.mul_comm]
  omega

/-- The next address that is a multiple of the alignment, starting with the address itself. -/
def alignUp (address : Nat) (alignment : UInt32) : Except Error Nat :=
  let aligned := roundUp address alignment.toNat
  if aligned < addressSpace then .ok aligned else .error (.alignmentPastEnd address alignment)

end X86Asm
