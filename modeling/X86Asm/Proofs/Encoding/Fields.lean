import X86Asm.Proofs.Encoding.Decoder
import X86Asm.Proofs.LittleEndian

/-!
# Reading what was written

The decoder gets back what the encoder put into the fields of an instruction: numbers, the parts of
a ModR/M or SIB byte, prefixes, and the numbers of registers.
-/

namespace X86Asm

variable {mode : Mode} {bits : Nat} {w r x b : Bool} {opcode : UInt8} {v : Int}

/-! ## Numbers -/

/-- Reading a number back gives its signed remainder. -/
theorem Decoder.readSigned_append (width : Nat) (v : Int) (rest : List UInt8) :
    readSigned width (littleEndian width v ++ rest) = some (v.bmod (256 ^ width), rest) := by
  have hlen := length_littleEndian width v
  unfold readSigned
  rw [if_pos (by simp), List.take_left' hlen, List.drop_left' hlen, bmod_littleEndian]

/-- The signed remainder leaves the remainder modulo a divisor. -/
theorem bmod_emod_of_dvd {n : Nat} {m : Int} (h : m ∣ n) : v.bmod n % m = v % m := by
  rw [← Int.emod_emod_of_dvd _ h, Int.bmod_emod, Int.emod_emod_of_dvd _ h]

/-- What a field of so many bytes stands for is the value, up to a modulus. -/
structure Holds (modulus : Int) (width : Nat) (v : Int) : Prop where
  emod_eq : v.bmod (256 ^ width) % modulus = v % modulus

/-- A field holds every number up to a modulus that divides the numbers of the field. -/
theorem holds_of_dvd {modulus : Int} {width : Nat} (h : modulus ∣ (256 ^ width : Nat)) (v : Int) :
    Holds modulus width v :=
  ⟨bmod_emod_of_dvd h⟩

/-- A field holds the signed numbers of its width as they are. -/
theorem holds_of_signed {modulus : Int} {width : Nat}
    (h : -(256 ^ width : Nat) ≤ v * 2 ∧ v * 2 < (256 ^ width : Nat)) : Holds modulus width v :=
  ⟨by rw [Int.bmod_eq_of_le_mul_two h.1 h.2]⟩

/-! ## Bytes with three fields -/

/-- The three parts of a ModR/M byte are told apart. -/
theorem Decoder.ofByte_modRM {mod : Nat} (hmod : mod < 4) (reg rm : Nat) :
    Triple.ofByte (modRM mod reg rm) = ⟨mod, reg % 8, rm % 8⟩ := by
  have hlt : 64 * mod + 8 * (reg % 8) + rm % 8 < 256 := by omega
  simp only [Triple.ofByte, modRM, UInt8.toNat_ofNat', Nat.mod_eq_of_lt hlt, Triple.mk.injEq]
  omega

/-- A scale takes two bits. -/
theorem scaleBits_lt (scale : UInt8) : scaleBits scale < 4 := by
  unfold scaleBits
  split <;> decide

/-- The three parts of a SIB byte are told apart. -/
theorem Decoder.ofByte_sib (scale : UInt8) (index base : Nat) :
    Triple.ofByte (sib scale index base) = ⟨scaleBits scale, index % 8, base % 8⟩ :=
  ofByte_modRM (scaleBits_lt scale) index base

/-! ## Prefixes -/

namespace Decoder

/-- Whether the byte is not an opcode in any mode. -/
def isPrefix (b : UInt8) : Bool := b = 0x66 || isRex b

/-- Whether an operand size is the one that is not the default. -/
def toggles (mode : Mode) (bits : Nat) : Bool :=
  (bits = 16 || bits = 32) && bits ≠ mode.defaultOperandBits

/-- What the decoder makes of the prefixes of an operand size and a REX prefix. -/
def Prefixes.of (mode : Mode) (bits : Nat) (w r x b : Bool) : Prefixes :=
  { toggled := toggles mode bits, rex := w || r || x || b, w, r, x, b }

@[simp] theorem Prefixes.of_r : (Prefixes.of mode bits w r x b).r = r := rfl

@[simp] theorem Prefixes.of_b : (Prefixes.of mode bits w r x b).b = b := rfl

/-- The decoder gets a REX prefix back, or that there is none. -/
theorem readRex_append (mode : Mode) (toggled : Bool) (hlong : w || r || x || b → mode.isLong)
    (hop : isPrefix opcode = false) (bytes : List UInt8) :
    readRex mode toggled (rexPrefix w r x b ++ opcode :: bytes) =
      ({ toggled, rex := w || r || x || b, w, r, x, b }, opcode :: bytes) := by
  have hrex : isRex opcode = false := (Bool.or_eq_false_iff.mp hop).2
  cases h : (w || r || x || b) with
  | false =>
    obtain ⟨⟨⟨rfl, rfl⟩, rfl⟩, rfl⟩ : ((w = false ∧ r = false) ∧ x = false) ∧ b = false := by
      simpa using h
    simp [rexPrefix, readRex, hrex]
  | true =>
    have hlong := hlong h
    rw [rexPrefix, if_pos h]
    cases w <;> cases r <;> cases x <;> cases b <;> first
      | exact absurd h (by decide)
      | simp [readRex, hlong, isRex]

/-- Without an operand-size prefix the decoder starts at the REX prefix. -/
theorem readPrefixes_of_ne (h : opcode ≠ 0x66) (mode : Mode) (bytes : List UInt8) :
    readPrefixes mode (opcode :: bytes) = readRex mode false (opcode :: bytes) := by
  unfold readPrefixes
  split
  · rename_i hc
    exact absurd (List.cons.inj hc).1 h
  · rfl

/-- The decoder gets the prefixes back. -/
theorem readPrefixes_append (hlong : w || r || x || b → mode.isLong)
    (hop : isPrefix opcode = false) (bytes : List UInt8) :
    readPrefixes mode (operandSizePrefix mode bits ++ rexPrefix w r x b ++ opcode :: bytes) =
      (.of mode bits w r x b, opcode :: bytes) := by
  have hrex := fun toggled => readRex_append mode toggled hlong hop bytes
  have hsize : opcode ≠ 0x66 := of_decide_eq_false (Bool.or_eq_false_iff.mp hop).1
  rw [List.append_assoc, operandSizePrefix]
  cases ht : toggles mode bits with
  | true =>
    rw [if_pos (by simpa [toggles] using ht), Prefixes.of, ht, ← hrex]
    rfl
  | false =>
    rw [if_neg (by simpa [toggles] using ht), Prefixes.of, ht, ← hrex, List.nil_append]
    -- what comes first is a REX prefix or the opcode
    unfold rexPrefix
    split
    · refine readPrefixes_of_ne ?_ mode _
      cases w <;> cases r <;> cases x <;> cases b <;> decide
    · exact readPrefixes_of_ne hsize mode bytes

end Decoder

/-! ## Registers -/

/-- Registers have one of four widths. -/
theorem Register.bits_cases (r : Register) :
    r.bits = 8 ∨ r.bits = 16 ∨ r.bits = 32 ∨ r.bits = 64 := by
  cases r <;> simp [Register.bits]

/-- The code of a register is cut to three bits already. -/
@[simp] theorem Register.code_mod (r : Register) : r.code % 8 = r.code := Nat.mod_mod _ _

/-- The code of a register has three bits. -/
theorem Register.code_lt (r : Register) : r.code < 8 := Nat.mod_lt _ (by decide)

/-- The number of a register is put together from the three bits and the fourth. -/
theorem Register.code_add (r : Register) : r.code + 8 * r.isExtended.toNat = r.number := by
  have hlt : r.number < 16 := by
    cases r with
    | rip => decide
    | _ n =>
      rw [number]
      omega
  unfold code isExtended
  by_cases h : 8 ≤ r.number
  · simp only [h, decide_true, Bool.toNat_true]
    omega
  · simp only [h, decide_false, Bool.toNat_false]
    omega

/-- No byte register takes a fourth bit. -/
theorem Register.isExtended_of_bits {r : Register} (h : r.bits = 8) : r.isExtended = false := by
  cases r with
  | byte n =>
    rw [isExtended, decide_eq_false_iff_not, number]
    omega
  | _ => cases h

/-- High bytes are byte registers. -/
theorem Register.bits_of_isHighByte {r : Register} (h : r.isHighByte) : r.bits = 8 := by
  cases r with
  | byte n => rfl
  | _ => cases h

/-- Registers with 64 bits and those with a fourth bit exist in long mode only. -/
theorem Register.isLong_of_existsIn {r : Register} (h : r.existsIn mode)
    (hr : r.bits = 64 ∨ r.isExtended) : mode.isLong := by
  rw [existsIn, needsLongMode, Bool.or_eq_true] at h
  rcases h with h | h
  · rcases hr with hr | hr <;> simp [hr] at h
  · exact h

namespace Decoder

/-- A register is told by its width and its number. -/
theorem register?_number {r : Register} (hr : r ≠ .rip) : register? r.bits r.number = some r := by
  cases r with
  | rip => exact absurd rfl hr
  | _ n => simp [register?, Register.bits, Register.number]

/-- The prefixes tell the operand size that they were made for. -/
theorem operandBits_of (hbits : bits = 16 ∨ bits = 32 ∨ bits = 64) :
    (Prefixes.of mode bits (bits = 64) r x b).operandBits mode = bits := by
  rcases hbits with rfl | rfl | rfl <;> cases mode <;> rfl

/-- A register whose size the prefixes tell. -/
theorem register?_of {reg : Register} (hreg : reg ≠ .rip) (hbits : reg.bits = bits)
    (hhigh : reg.isHighByte → (r || x || b) = false) :
    (Prefixes.of mode bits (bits = 64) r x b).register? mode (bits ≠ 8) reg.number =
      some reg := by
  subst hbits
  unfold Prefixes.register?
  by_cases hbyte : reg.bits = 8
  · rw [if_neg (by simp [hbyte])]
    have hrex : ((Prefixes.of mode reg.bits (reg.bits = 64) r x b).rex && 4 ≤ reg.number) =
        false := by
      rw [Bool.and_eq_false_iff, decide_eq_false_iff_not]
      by_cases h : reg.isHighByte
      · simp [Prefixes.of, hbyte, hhigh h]
      · refine .inr fun hle => h ?_
        cases reg <;> simp_all [Register.bits, Register.isHighByte, Register.number]
    rw [if_neg (by simp [hrex])]
    have := register?_number hreg
    rwa [hbyte] at this
  · rw [if_pos (by simp [hbyte]), operandBits_of (reg.bits_cases.resolve_left hbyte)]
    exact register?_number hreg

/-- The prefixes tell the size of a stack operand that they were made for. -/
theorem stackBits_of (hbits : bits = 16 ∨ bits = mode.addressBits) :
    (Prefixes.of mode bits false false false b).stackBits mode = bits := by
  rcases hbits with rfl | rfl <;> cases mode <;> rfl

/-- Without an operand-size prefix a branch target has the size of the mode. -/
theorem stackBits_target :
    (Prefixes.of mode 64 false false false b).stackBits mode = Template.targetBits mode := by
  cases mode <;> rfl

end Decoder

end X86Asm
