import Mathlib.Data.Int.ModEq
import Mathlib.Tactic.Positivity
import X86Asm.LittleEndian

/-!
# What little-endian fields hold

A field of `width` bytes holds a value modulo `256 ^ width`: reading it gives that remainder
(`ofLittleEndian_littleEndian`), so two values have the same field exactly if they are congruent.
-/

namespace X86Asm

/-- A number is cut to a byte by taking it modulo 256. -/
theorem toNat_ofInt (v : Int) : ((UInt8.ofInt v).toNat : Int) = v % 256 := by
  have hpos := Int.emod_nonneg v (by decide : (256 : Int) ≠ 0)
  have hlt := Int.emod_lt_of_pos v (by decide : (0 : Int) < 256)
  simp only [UInt8.ofInt, UInt8.toNat_ofNat', show (2 : Int) ^ 8 = 256 from rfl]
  omega

/-- A word read as a signed number is the number of the word, cut to 64 bits. -/
theorem toInt64_eq_ofInt (x : UInt64) : x.toInt64 = Int64.ofInt x.toNat := by
  rw [← Int64.toBitVec_inj, Int64.toBitVec_ofInt]
  simp

/-- The lowest byte of a remainder, and the rest of it. -/
theorem emod_mul_eq_add (v : Int) {m : Int} (hm : 0 < m) :
    v % (256 * m) = v % 256 + 256 * (v / 256 % m) := by
  have hv := Int.emod_add_mul_ediv v 256
  have hq := Int.emod_add_mul_ediv (v / 256) m
  have hrest := Int.emod_nonneg (v / 256) (Int.ne_of_gt hm)
  have hrest' := Int.emod_lt_of_pos (v / 256) hm
  have hsum : v = v % 256 + 256 * (v / 256 % m) + 256 * m * (v / 256 / m) := by
    rw [Int.mul_assoc]
    omega
  rw [hsum, Int.add_mul_emod_self_left, ← hsum]
  exact Int.emod_eq_of_lt (by omega) (by omega)

/-- Reading a field gives the value modulo what the field can hold. -/
theorem ofLittleEndian_littleEndian (width : Nat) (v : Int) :
    (ofLittleEndian (littleEndian width v) : Int) = v % 256 ^ width := by
  induction width generalizing v with
  | zero => simp [littleEndian, ofLittleEndian]
  | succ width ih =>
    rw [littleEndian, ofLittleEndian, Int.natCast_add, Int.natCast_mul, ih, toNat_ofInt, pow_succ',
      emod_mul_eq_add _ (by positivity)]
    rfl

/-- Reading a field as signed gives the signed remainder of the value. -/
theorem bmod_littleEndian (width : Nat) (v : Int) :
    (ofLittleEndian (littleEndian width v) : Int).bmod (256 ^ width) = v.bmod (256 ^ width) := by
  have hmod : v % 256 ^ width = v % ((256 ^ width : Nat) : Int) := by push_cast; rfl
  rw [ofLittleEndian_littleEndian, hmod, Int.emod_bmod]

/-- Bytes are the field of the number that they hold. -/
theorem littleEndian_ofLittleEndian (bytes : List UInt8) :
    littleEndian bytes.length (ofLittleEndian bytes) = bytes := by
  induction bytes with
  | nil => rfl
  | cons b bytes ih =>
    have hb := b.toNat_lt
    have hrest : ((ofLittleEndian (b :: bytes) : Nat) : Int) / 256 = ofLittleEndian bytes := by
      rw [ofLittleEndian]
      omega
    have hlow : UInt8.ofInt (ofLittleEndian (b :: bytes) : Nat) = b := by
      refine UInt8.toNat_inj.mp ?_
      have := toNat_ofInt (ofLittleEndian (b :: bytes) : Nat)
      rw [ofLittleEndian] at this ⊢
      omega
    rw [List.length_cons, littleEndian, hrest, ih, hlow]

/-- Bytes hold a number that they have room for. -/
theorem ofLittleEndian_lt (bytes : List UInt8) : ofLittleEndian bytes < 256 ^ bytes.length := by
  induction bytes with
  | nil => decide
  | cons b bytes ih =>
    have hb := b.toNat_lt
    rw [ofLittleEndian, List.length_cons, pow_succ']
    omega

/-- Bytes hold a number exactly if they are its field. -/
theorem ofLittleEndian_eq_iff {bytes : List UInt8} {n : Nat} :
    ofLittleEndian bytes = n ↔
      n < 256 ^ bytes.length ∧ bytes = littleEndian bytes.length n := by
  constructor
  · rintro rfl
    exact ⟨ofLittleEndian_lt bytes, (littleEndian_ofLittleEndian bytes).symm⟩
  · rintro ⟨hlt, hbytes⟩
    have hfield := ofLittleEndian_littleEndian bytes.length n
    have hrest : (n : Int) % 256 ^ bytes.length = n := Int.emod_eq_of_lt (by omega) (mod_cast hlt)
    rw [← hbytes, hrest] at hfield
    exact_mod_cast hfield

/-- Zeros are read as zero. -/
theorem ofLittleEndian_replicate_zero (width : Nat) :
    ofLittleEndian (List.replicate width 0) = 0 := by
  induction width with
  | zero => rfl
  | succ width ih =>
    rw [List.replicate_succ, ofLittleEndian, ih]
    rfl

/-- Only what is left of a number modulo the size of the field is written. -/
theorem littleEndian_emod (width : Nat) (v : Int) :
    littleEndian width (v % 256 ^ width) = littleEndian width v := by
  have := littleEndian_ofLittleEndian (littleEndian width v)
  rwa [length_littleEndian, ofLittleEndian_littleEndian] at this

/-- Congruent values have the same field. -/
theorem littleEndian_congr {width : Nat} {v u : Int} (h : v ≡ u [ZMOD 256 ^ width]) :
    littleEndian width v = littleEndian width u := by
  rw [← littleEndian_emod, ← littleEndian_emod width u, h]

end X86Asm
