import Mathlib.Data.Nat.Bitwise
import Mathlib.Order.Bounds.Basic
import X86Asm.Layout.Alignment

/-!
# The next multiple of an alignment

Of the multiples of an alignment that are not below an address there is a least one
(`isLeast_roundUp`). `alignUp` returns it if it is an address (`alignUp_eq_ok_iff`), and fails if
the address space ends before it (`alignUp_eq_error_iff`).

A power of two divides the address space. So the least multiple is an address exactly if the sum of
the address and the mask of the alignment is one (`roundUp_lt_iff`), and what clears the mask in
that sum finds it (`alignWord?`).
-/

namespace X86Asm

variable {address n m a k : Nat} {alignment : UInt32}

/-- The multiples of `a` that are not below `n`. -/
def multiplesFrom (n a : Nat) : Set Nat := {m | n ≤ m ∧ a ∣ m}

/-- Rounding up finds the least multiple that is not below the address. -/
theorem isLeast_roundUp (n : Nat) (ha : 0 < a) : IsLeast (multiplesFrom n a) (roundUp n a) :=
  ⟨⟨le_roundUp n ha, dvd_roundUp n a⟩, fun _ hm => roundUp_le ha hm.1 hm.2⟩

/-- There is one least multiple. -/
theorem isLeast_multiplesFrom_iff (ha : 0 < a) :
    IsLeast (multiplesFrom n a) m ↔ m = roundUp n a :=
  ⟨fun h => h.unique (isLeast_roundUp n ha), fun h => h ▸ isLeast_roundUp n ha⟩

/-- Rounding up adds less than the alignment. -/
theorem roundUp_le_add (n a : Nat) : roundUp n a ≤ n + (a - 1) := Nat.div_mul_le_self ..

/-- A lower address is not rounded to a higher one. -/
theorem roundUp_mono (ha : 0 < a) (h : n ≤ m) : roundUp n a ≤ roundUp m a :=
  roundUp_le ha (Nat.le_trans h (le_roundUp m ha)) (dvd_roundUp m a)

/-- A multiple is not moved. -/
theorem roundUp_of_dvd (ha : 0 < a) (h : a ∣ n) : roundUp n a = n :=
  Nat.le_antisymm (roundUp_le ha (Nat.le_refl n) h) (le_roundUp n ha)

/-- Aligning leads to the least multiple if that is an address. -/
theorem alignUp_eq_ok_iff :
    alignUp address alignment = .ok m ↔
      m = roundUp address alignment.toNat ∧ m < addressSpace := by
  unfold alignUp
  simp only
  split
  · constructor
    · rintro ⟨⟩
      exact ⟨rfl, ‹_›⟩
    · rintro ⟨rfl, -⟩
      rfl
  · constructor
    · rintro ⟨⟩
    · rintro ⟨rfl, hlt⟩
      exact absurd hlt ‹_›

/-- Aligning fails if the least multiple is not an address, and says so. -/
theorem alignUp_eq_error_iff {e : Error} :
    alignUp address alignment = .error e ↔
      e = .alignmentPastEnd address alignment ∧
        addressSpace ≤ roundUp address alignment.toNat := by
  unfold alignUp
  simp only
  split
  · constructor
    · rintro ⟨⟩
    · rintro ⟨-, hle⟩
      omega
  · constructor
    · rintro ⟨⟩
      exact ⟨rfl, Nat.not_lt.mp ‹_›⟩
    · rintro ⟨rfl, -⟩
      rfl

/-! ## Masks -/

/-- Clearing the low bits of a number rounds it down. -/
theorem ldiff_mask (n k : Nat) : n.ldiff (2 ^ k - 1) = n / 2 ^ k * 2 ^ k := by
  refine Nat.eq_of_testBit_eq fun i => ?_
  rw [Nat.testBit_ldiff, Nat.testBit_two_pow_sub_one, Nat.testBit_mul_two_pow,
    Nat.testBit_div_two_pow]
  by_cases hi : i < k
  · simp [hi]
  · have hk : k ≤ i := Nat.not_lt.mp hi
    simp [hi, hk]

/-- Clearing the bits of a mask in a word. -/
theorem toNat_and_not (x mask : UInt64) : (x &&& ~~~mask).toNat = x.toNat.ldiff mask.toNat := by
  refine Nat.eq_of_testBit_eq fun i => ?_
  rw [Nat.testBit_ldiff, ← UInt64.toNat_toBitVec, ← UInt64.toNat_toBitVec, ← UInt64.toNat_toBitVec,
    ← BitVec.getLsbD, ← BitVec.getLsbD, ← BitVec.getLsbD, UInt64.toBitVec_and, UInt64.toBitVec_not,
    BitVec.getLsbD_and, BitVec.getLsbD_not]
  by_cases hi : i < 64
  · simp [hi]
  · simp [hi, BitVec.getLsbD_of_ge x.toBitVec i (Nat.not_lt.mp hi)]

/-- Rounding up to a divisor of the address space leaves it exactly if carrying does. -/
theorem roundUp_lt_iff (ha : 0 < a) (hdvd : a ∣ addressSpace) :
    roundUp address a < addressSpace ↔ address + (a - 1) < addressSpace := by
  obtain ⟨m, hm⟩ := hdvd
  constructor
  · intro h
    have hdiv : (address + (a - 1)) / a < m := by
      rw [roundUp, Nat.mul_comm, hm] at h
      exact Nat.lt_of_mul_lt_mul_left h
    have := (Nat.div_lt_iff_lt_mul ha).mp hdiv
    rwa [hm, Nat.mul_comm]
  · exact Nat.lt_of_le_of_lt (roundUp_le_add address a)

/-- The next multiple of an alignment, found with words of 64 bits: the mask of the alignment is
added, which must not carry out of the word, and cleared. -/
def alignWord? (address : UInt64) (alignment : UInt32) : Option UInt64 :=
  let mask := (max alignment 1).toUInt64 - 1
  if address.toNat + mask.toNat < UInt64.size then some ((address + mask) &&& ~~~mask) else none

/-- The mask of an alignment has one less than the alignment for its number. -/
theorem toNat_alignmentMask (hpos : 0 < alignment.toNat) :
    ((max alignment 1).toUInt64 - 1).toNat = alignment.toNat - 1 := by
  have hmax : max alignment 1 = alignment := by
    show (if alignment ≤ 1 then 1 else alignment) = alignment
    split
    · exact UInt32.le_antisymm (UInt32.le_iff_toNat_le.mpr hpos) ‹_›
    · rfl
  have hone : (1 : UInt64) ≤ alignment.toUInt64 := UInt64.le_iff_toNat_le.mpr <| by
    rw [UInt32.toNat_toUInt64]
    exact hpos
  rw [hmax, UInt64.toNat_sub_of_le _ _ hone, UInt32.toNat_toUInt64]
  rfl

/-- An alignment that is a power of two divides the address space. -/
theorem dvd_addressSpace (h : alignment.toNat = 2 ^ k) : alignment.toNat ∣ addressSpace := by
  have hlt : 2 ^ k < 2 ^ 32 := h ▸ alignment.toNat_lt
  have hk : k < 32 := (Nat.pow_lt_pow_iff_right (by decide)).mp hlt
  exact h ▸ Nat.pow_dvd_pow 2 (by omega : k ≤ 64)

/-- Words find the next multiple of a power of two. -/
theorem map_alignWord? (h : alignment.toNat = 2 ^ k) (address : UInt64) :
    (alignWord? address alignment).map UInt64.toNat =
      (alignUp address.toNat alignment).toOption := by
  have hpos : 0 < alignment.toNat := h ▸ Nat.two_pow_pos k
  have hmask := toNat_alignmentMask hpos
  unfold alignWord? alignUp
  generalize (max alignment 1).toUInt64 - 1 = mask at hmask ⊢
  simp only [roundUp_lt_iff hpos (dvd_addressSpace h), ← hmask,
    show UInt64.size = addressSpace from rfl]
  split
  · have hsum : (address + mask).toNat = address.toNat + mask.toNat := by
      rw [UInt64.toNat_add, Nat.mod_eq_of_lt ‹_›]
    rw [Option.map_some, toNat_and_not, hsum, hmask, h, ldiff_mask]
    rfl
  · rfl

/-! ## Rounding up -/

/-- Addresses are rounded up to multiples of an alignment. -/
structure RoundsUp (alignment : UInt32) : Prop where
  /-- The result is the least multiple that is not below the address, if that is an address. -/
  eq_ok_iff : ∀ (address : UInt64) (m : Nat), alignUp address.toNat alignment = .ok m ↔
    IsLeast (multiplesFrom address.toNat alignment.toNat) m ∧ m < addressSpace
  /-- There is an error, which says so, exactly if no such multiple is an address. -/
  eq_error_iff : ∀ (address : UInt64) (e : Error), alignUp address.toNat alignment = .error e ↔
    e = .alignmentPastEnd address.toNat alignment ∧
      ∀ m ∈ multiplesFrom address.toNat alignment.toNat, addressSpace ≤ m
  /-- A lower address is not rounded to a higher one. -/
  mono : ∀ (address address' : UInt64) (m' : Nat), address ≤ address' →
    alignUp address'.toNat alignment = .ok m' →
      ∃ m, alignUp address.toNat alignment = .ok m ∧ m ≤ m'
  /-- What has been rounded up stays. -/
  idempotent : ∀ (address : UInt64) (m : Nat), alignUp address.toNat alignment = .ok m →
    alignUp m alignment = .ok m
  /-- The padding is below the alignment. -/
  padding_lt : ∀ (address : UInt64) (m : Nat), alignUp address.toNat alignment = .ok m →
    address.toNat ≤ m ∧ m - address.toNat < alignment.toNat
  /-- Adding and clearing the mask in words does the same. -/
  words : ∀ address : UInt64, (alignWord? address alignment).map UInt64.toNat =
    (alignUp address.toNat alignment).toOption

/-- **Rounding up.** Addresses are rounded up to multiples of any power of two. -/
theorem alignUp_roundsUp (h : alignment.toNat = 2 ^ k) : RoundsUp alignment := by
  have hpos : 0 < alignment.toNat := h ▸ Nat.two_pow_pos k
  constructor
  case eq_ok_iff =>
    intro address m
    rw [alignUp_eq_ok_iff, isLeast_multiplesFrom_iff hpos]
  case eq_error_iff =>
    intro address e
    -- no multiple is an address exactly if the least one is none
    have hleast := isLeast_roundUp address.toNat hpos
    rw [alignUp_eq_error_iff]
    exact and_congr_right fun _ =>
      ⟨fun hle m hm => Nat.le_trans hle (hleast.2 hm), fun hall => hall _ hleast.1⟩
  case mono =>
    intro address address' m' hle hm'
    obtain ⟨rfl, hlt⟩ := alignUp_eq_ok_iff.mp hm'
    have hmono := roundUp_mono hpos (UInt64.le_iff_toNat_le.mp hle)
    exact ⟨_, alignUp_eq_ok_iff.mpr ⟨rfl, Nat.lt_of_le_of_lt hmono hlt⟩, hmono⟩
  case idempotent =>
    intro address m hm
    obtain ⟨rfl, hlt⟩ := alignUp_eq_ok_iff.mp hm
    exact alignUp_eq_ok_iff.mpr ⟨(roundUp_of_dvd hpos (dvd_roundUp ..)).symm, hlt⟩
  case padding_lt =>
    intro address m hm
    obtain ⟨rfl, -⟩ := alignUp_eq_ok_iff.mp hm
    have hle := roundUp_le_add address.toNat alignment.toNat
    exact ⟨le_roundUp _ hpos, by omega⟩
  case words => exact map_alignWord? h

/-- Pages are aligned up to the last one. The addresses behind its start have no page above them. -/
theorem roundsUp_page :
    (0x1000 : UInt32).toNat = 2 ^ 12 ∧ RoundsUp 0x1000 ∧
      IsLeast (multiplesFrom 0xFFFFFFFFFFFFE001 0x1000) 0xFFFFFFFFFFFFF000 ∧
      (∀ m ∈ multiplesFrom 0xFFFFFFFFFFFFF001 0x1000, addressSpace ≤ m) := by
  have hpage : RoundsUp 0x1000 := alignUp_roundsUp (k := 12) rfl
  have hlast : alignUp 0xFFFFFFFFFFFFE001 0x1000 = .ok 0xFFFFFFFFFFFFF000 := by decide
  have hnone : alignUp 0xFFFFFFFFFFFFF001 0x1000 =
      .error (.alignmentPastEnd 0xFFFFFFFFFFFFF001 0x1000) := by rfl
  exact ⟨rfl, hpage, ((hpage.eq_ok_iff 0xFFFFFFFFFFFFE001 _).mp hlast).1,
    ((hpage.eq_error_iff 0xFFFFFFFFFFFFF001 _).mp hnone).2⟩

end X86Asm
