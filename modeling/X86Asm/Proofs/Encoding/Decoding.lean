import X86Asm.Proofs.Encoding.Length
import X86Asm.Proofs.Encoding.Memory

/-!
# Decoding what was encoded

The decoder gets the normal form of an instruction back from its encoding in a strict context, and
leaves alone what follows (`Instruction.decode_append`). So no encoding begins another one, and
instructions that share their bytes mean the same.

There is one lemma for each family of templates. It says that the template reads back as an
instruction wherever it is filled in (`Template.Reads`).
-/

namespace X86Asm

variable {mode : Mode} {m : Mnemonic} {t : Template} {dst src r : Register} {v : Int64}
  {operands : List Operand}

/-- Wherever the template is filled in, the decoder reads the instruction. -/
def Template.Reads (mode : Mode) (t : Template) (i : Instruction) : Prop :=
  ∀ ctx e rest, ctx.strict → t.fill mode ctx = .ok e →
    Decoder.readInstruction mode (ctx.address.toNat + (e.bytes ++ rest).length) (e.bytes ++ rest) =
      some (i.normalForm mode ctx e.bytes.length, rest)

/-- A register that an operand may be. -/
structure Register.Operates (mode : Mode) (r : Register) : Prop where
  ne_rip : r ≠ .rip
  existsIn : r.existsIn mode

/-- A register that passes as an operand is one that the mode has. -/
theorem Register.operates_of_check (h : (Operand.register r).check mode = .ok ()) :
    r.Operates mode := by
  cases r with
  | rip => cases h
  | _ => exact ⟨nofun, Refusal.unless_eq_ok.mp h⟩

/-- Bits of a REX prefix that come from one register are clear outside long mode. -/
theorem Register.Operates.isLong (hr : r.Operates mode)
    (h : (r.bits = 64 || r.isExtended) = true) : mode.isLong :=
  isLong_of_existsIn hr.existsIn (by simpa using h)

/-- The same where the register is the only one that a REX prefix could be for. -/
theorem Register.Operates.isLong_of_rex (hr : r.Operates mode)
    (h : (r.bits = 64 || false || false || r.isExtended) = true) : mode.isLong :=
  hr.isLong (by simpa using h)

/-- A high byte takes no REX prefix. -/
theorem Register.rex_of_isHighByte (h : r.isHighByte) :
    (false || false || r.isExtended) = false := by
  simp [isExtended_of_bits (bits_of_isHighByte h)]

namespace Decoder

variable {opcode : UInt8} {op : Opcode} {bits : Nat} {w r x b : Bool}

/-- No opcode is a prefix, by trying all bytes. -/
theorem isPrefix_of_opcode (h : opcode? opcode = some op) : isPrefix opcode = false := by
  have hall : ∀ n < 256, (opcode? (.ofNat n)).isSome → isPrefix (.ofNat n) = false := by
    decide +kernel
  have := hall opcode.toNat opcode.toNat_lt
  rw [UInt8.ofNat_toNat] at this
  exact this (by rw [h]; rfl)

/-- An opcode of one byte is read off the first byte. -/
theorem readOpcode_cons (h : opcode? opcode = some op) (hop : op ≠ .escape) (bytes : List UInt8) :
    readOpcode (opcode :: bytes) = some (op, bytes) := by
  simp [readOpcode, h]

/-- The decoder gets over the prefixes and the opcode to the fields. -/
theorem readInstruction_append (hlong : w || r || x || b → mode.isLong)
    (h : opcode? opcode = some op) (hop : op ≠ .escape) (stop : Nat) (bytes : List UInt8) :
    readInstruction mode stop
        (operandSizePrefix mode bits ++ rexPrefix w r x b ++ opcode :: bytes) =
      readOperands mode stop (.of mode bits w r x b) bytes op := by
  unfold readInstruction
  rw [readPrefixes_append hlong (isPrefix_of_opcode h)]
  simp [readOpcode_cons h hop]

/-- Without prefixes the decoder starts at the opcode. -/
theorem readInstruction_cons (h : opcode? opcode = some op) (hop : op ≠ .escape) (stop : Nat)
    (bytes : List UInt8) :
    readInstruction mode stop (opcode :: bytes) =
      readOperands mode stop (.of mode 8 false false false false) bytes op :=
  @readInstruction_append mode opcode op 8 false false false false
    (fun hc => absurd hc (by decide)) h hop stop bytes

/-- A ModR/M byte for two registers is taken apart into their codes. -/
@[simp] theorem readTriple_modRM (reg rm : Nat) (bytes : List UInt8) :
    readTriple (modRM 3 reg rm :: bytes) = some (⟨3, reg % 8, rm % 8⟩, bytes) := by
  rw [readTriple, ofByte_modRM (by decide)]

end Decoder

namespace Template

open Decoder

/-- A template without a label is read wherever its bytes are. -/
theorem reads_fixed {bytes : List UInt8} {i : Instruction}
    (h : ∀ ctx stop rest, readInstruction mode stop (bytes ++ rest) =
      some (i.normalForm mode ctx bytes.length, rest)) : (fixed bytes).Reads mode i := by
  intro ctx e rest _ hfill
  obtain rfl := Except.ok.inj hfill
  exact h ctx _ rest

/-! ## Operations without a memory operand -/

/-- An operation without operands is read back. -/
theorem reads_ofOpcode {opcode : UInt8} (hop : opcode? opcode = some (.plain m))
    (h : ofOpcode opcode operands = .ok t) : t.Reads mode ⟨m, operands⟩ := by
  unfold ofOpcode at h
  split at h
  · cases h
    exact reads_fixed fun ctx stop rest => readInstruction_cons hop nofun stop rest
  · cases h

/-- A return is read back, with the number of bytes that it drops. -/
theorem reads_ofReturn (h : ofReturn operands = .ok t) : t.Reads mode ⟨.ret, operands⟩ := by
  unfold ofReturn at h
  split at h
  · cases h
    have hop : opcode? 0xC3 = some (.plain .ret) := rfl
    exact reads_fixed fun ctx stop rest => readInstruction_cons hop nofun stop rest
  · rename_i v
    obtain ⟨-, h⟩ := check_bind_eq_ok_iff.mp h
    cases h
    have hop : opcode? 0xC2 = some .returnDrop := rfl
    have hvalue : Holds (2 ^ 16) 2 v.toInt := holds_of_dvd (by decide) _
    refine reads_fixed fun ctx stop rest => ?_
    rw [List.cons_append, readInstruction_cons hop nofun]
    simp only [readOperands, readSigned_append, Option.bind_eq_bind, Option.bind_some,
      hvalue.emod_eq]
    rfl
  · cases h

/-- Pushing and popping are read back, with the register that the opcode holds. -/
theorem reads_ofStackOp {opcode : Nat}
    (hop : ∀ n < 8, opcode? (.ofNat (opcode + n)) = some (.stack m n))
    (hcheck : ∀ o ∈ operands, o.check mode = .ok ())
    (h : ofStackOp mode opcode operands = .ok t) : t.Reads mode ⟨m, operands⟩ := by
  unfold ofStackOp at h
  split at h
  · rename_i r
    obtain ⟨hbits, h⟩ := check_bind_eq_ok_iff.mp h
    cases h
    have hr := Register.operates_of_check (hcheck _ List.mem_cons_self)
    have hbits : r.bits = 16 ∨ r.bits = mode.addressBits := by
      simpa using Refusal.unless_eq_ok.mp hbits
    refine reads_fixed fun ctx stop rest => ?_
    rw [List.append_assoc, List.singleton_append,
      readInstruction_append (by simpa using fun he => hr.isLong (by simp [he]))
        (hop _ r.code_lt) nofun]
    simp only [readOperands, stackBits_of hbits, Prefixes.of_b, r.code_add,
      register?_number hr.ne_rip]
    rfl
  · cases h

/-- The prefixes of two registers tell the size and the fourth bits of both. -/
theorem reads_ofRegisters {opcode : Nat}
    (hop : ∀ wide : Bool, opcode? (.ofNat (if wide then opcode + 1 else opcode)) =
      some (.store m wide))
    (hdst : dst.Operates mode) (hsrc : src.Operates mode)
    (h : ofRegisters mode opcode dst src = .ok t) :
    t.Reads mode ⟨m, [.register dst, .register src]⟩ := by
  obtain ⟨hbits, h⟩ := check_bind_eq_ok_iff.mp h
  cases h
  have hbits : dst.bits = src.bits := of_decide_eq_true (Refusal.unless_eq_ok.mp hbits)
  have hextended : (src.bits = 64 || src.isExtended || false || dst.isExtended) → mode.isLong := by
    intro hc
    simp only [Bool.or_false, Bool.or_eq_true] at hc
    rcases hc with hc | hc
    · exact hsrc.isLong (by simpa using hc)
    · exact hdst.isLong (by simp [hc])
  have hop : opcode? (.ofNat (if dst.bits = 8 then opcode else opcode + 1)) =
      some (.store m (src.bits ≠ 8)) := by
    rw [← hop, hbits]
    by_cases hbyte : src.bits = 8 <;> simp [hbyte]
  refine reads_fixed fun ctx stop rest => ?_
  rw [List.append_assoc, List.cons_append, List.singleton_append,
    readInstruction_append hextended hop nofun]
  -- byte registers have no fourth bit, so high bytes do not meet a REX prefix
  have hhigh : ∀ r : Register, r.bits = src.bits → r.isHighByte →
      (src.isExtended || false || dst.isExtended) = false := by
    intro r hr hhigh
    have hbyte : src.bits = 8 := hr.symm.trans (r.bits_of_isHighByte hhigh)
    simp [src.isExtended_of_bits hbyte, dst.isExtended_of_bits (hbits.trans hbyte)]
  simp only [readOperands, readTriple_modRM, Option.bind_eq_bind, Option.bind_some,
    Prefixes.of_r, Prefixes.readOperand, if_true, Prefixes.of_b, Register.code_mod,
    Register.code_add, register?_of hsrc.ne_rip rfl (hhigh src rfl),
    register?_of hdst.ne_rip hbits (hhigh dst hbits)]
  rfl

/-! ## Constants -/

/-- A constant as wide as a register is held as it is, up to the width. -/
theorem holds_whole (r : Register) (v : Int) : Holds (2 ^ r.bits) (r.bits / 8) v := by
  rcases r.bits_cases with h | h | h | h <;> rw [h] <;> exact holds_of_dvd (by decide) v

/-- A constant that fits four signed bytes is held as it is. -/
theorem holds_of_fitsSigned32 {modulus : Int} (h : liesWithin (-0x80000000) 0x7FFFFFFF v.toInt) :
    Holds modulus 4 v.toInt := by
  simp only [liesWithin, Bool.and_eq_true, decide_eq_true_eq] at h
  exact holds_of_signed (by omega)

/-- Moving a constant as wide as the register is read back. -/
theorem reads_moveWhole {opcode : Nat}
    (hop : ∀ n < 8, opcode? (.ofNat (opcode + n)) = some (.moveWhole (dst.bits ≠ 8) n))
    (hdst : dst.Operates mode) (v : Int64) :
    (fixed (operandSizePrefix mode dst.bits ++
      rexPrefix (dst.bits = 64) false false dst.isExtended ++
      .ofNat (opcode + dst.code) :: littleEndian (dst.bits / 8) v.toInt)).Reads mode
        ⟨.mov, [.register dst, .immediate v]⟩ := by
  have hvalue := holds_whole dst v.toInt
  refine reads_fixed fun ctx stop rest => ?_
  rw [List.append_assoc, List.cons_append,
    readInstruction_append hdst.isLong_of_rex (hop _ dst.code_lt) nofun]
  simp only [readOperands, Prefixes.of_b, dst.code_add,
    register?_of hdst.ne_rip rfl dst.rex_of_isHighByte, Option.bind_eq_bind, Option.bind_some,
    readSigned_append, hvalue.emod_eq]
  rfl

/-- Moving a sign-extended constant to a wide register is read back. -/
theorem reads_moveSigned (hbits : dst.bits = 64) (hdst : dst.Operates mode)
    (hvalue : Holds (2 ^ dst.bits) 4 v.toInt) :
    (fixed (operandSizePrefix mode dst.bits ++
      rexPrefix (dst.bits = 64) false false dst.isExtended ++
      0xC7 :: modRM 3 0 dst.code :: littleEndian 4 v.toInt)).Reads mode
        ⟨.mov, [.register dst, .immediate v]⟩ := by
  have hop : opcode? 0xC7 = some .moveSigned := rfl
  have hwide : decide (dst.bits ≠ 8) = true := by simp [hbits]
  have hwidth : min dst.bits 32 / 8 = 4 := by simp [hbits]
  have hreg : (Prefixes.of mode dst.bits (dst.bits = 64) false false dst.isExtended).register? mode
      (dst.bits ≠ 8) dst.number = some dst := register?_of hdst.ne_rip rfl dst.rex_of_isHighByte
  rw [hwide] at hreg
  refine reads_fixed fun ctx stop rest => ?_
  rw [List.append_assoc, List.cons_append, List.cons_append,
    readInstruction_append hdst.isLong_of_rex hop nofun]
  simp only [readOperands, readTriple_modRM, Prefixes.of_b, Register.code_mod, dst.code_add, hreg,
    Option.bind_eq_bind, Option.bind_some, hwidth, readSigned_append, hvalue.emod_eq]
  rfl

/-- Moving a constant is read back, whichever form it has. -/
theorem reads_ofMoveImmediate (hdst : dst.Operates mode)
    (h : ofMoveImmediate mode dst v = .ok t) :
    t.Reads mode ⟨.mov, [.register dst, .immediate v]⟩ := by
  obtain ⟨-, h⟩ := check_bind_eq_ok_iff.mp h
  by_cases hbyte : dst.bits = 8
  · rw [if_pos hbyte] at h
    cases h
    have hop : ∀ n < 8, opcode? (.ofNat (0xB0 + n)) = some (.moveWhole (dst.bits ≠ 8) n) := by
      rw [hbyte]
      decide
    have hreads := reads_moveWhole hop hdst v
    simp only [hbyte, dst.isExtended_of_bits hbyte] at hreads
    exact hreads
  · rw [if_neg hbyte] at h
    by_cases hsigned : dst.bits = 64 && fitsSigned32 v
    · -- the processor extends the four bytes with the sign
      rw [if_pos hsigned] at h
      cases h
      obtain ⟨hbits, hfits⟩ := Bool.and_eq_true_iff.mp hsigned
      have hbits : dst.bits = 64 := of_decide_eq_true hbits
      have hreads := reads_moveSigned hbits hdst (holds_of_fitsSigned32 hfits)
      have hnone : operandSizePrefix mode 64 = [] := rfl
      rw [hbits] at hreads
      simpa [hnone] using hreads
    · rw [if_neg hsigned] at h
      cases h
      have hop : ∀ n < 8, opcode? (.ofNat (0xB8 + n)) = some (.moveWhole (dst.bits ≠ 8) n) := by
        rw [decide_eq_true hbyte]
        decide
      exact reads_moveWhole hop hdst v

/-- An arithmetic operation reads its constant from a field that holds it up to the width of the
destination. -/
theorem reads_group {opcode : UInt8} {short : Bool} {width : Nat} {field : Int} (op : AluOp)
    (hop : opcode? opcode = some (.group (dst.bits ≠ 8) short)) (hdst : dst.Operates mode)
    (hwidth : (if short then 1 else min dst.bits 32 / 8) = width)
    (hvalue : field.bmod (256 ^ width) % 2 ^ dst.bits = v.toInt % 2 ^ dst.bits) :
    (fixed (operandSizePrefix mode dst.bits ++
      rexPrefix (dst.bits = 64) false false dst.isExtended ++
      opcode :: modRM 3 op.digit dst.code :: littleEndian width field)).Reads mode
        ⟨.alu op, [.register dst, .immediate v]⟩ := by
  have hdigit : aluOp? (op.digit % 8) = some op := by cases op <;> rfl
  refine reads_fixed fun ctx stop rest => ?_
  rw [List.append_assoc, List.cons_append, List.cons_append,
    readInstruction_append hdst.isLong_of_rex hop nofun]
  simp only [readOperands, readTriple_modRM, Prefixes.of_b, Register.code_mod, dst.code_add,
    register?_of hdst.ne_rip rfl dst.rex_of_isHighByte, Option.bind_eq_bind, Option.bind_some,
    hwidth, readSigned_append, hdigit, hvalue]
  rfl

/-- Arithmetic with a constant is read back, whichever form it has. -/
theorem reads_ofAluImmediate {op : AluOp} (hdst : dst.Operates mode)
    (h : ofAluImmediate mode op dst v = .ok t) :
    t.Reads mode ⟨.alu op, [.register dst, .immediate v]⟩ := by
  obtain ⟨hrange, h⟩ := check_bind_eq_ok_iff.mp h
  have hrange := Refusal.unless_eq_ok.mp hrange
  by_cases hbyte : dst.bits = 8
  · rw [if_pos hbyte] at h
    cases h
    have hop : opcode? 0x80 = some (.group (dst.bits ≠ 8) true) := by
      rw [hbyte]
      rfl
    have hvalue : Holds (2 ^ dst.bits) 1 v.toInt := by
      rw [hbyte]
      exact holds_of_dvd (by decide) _
    simpa using reads_group op hop hdst rfl hvalue.emod_eq
  · rw [if_neg hbyte] at h
    by_cases hsigned : liesWithin (-128) 127 (v.toInt.bmod (Nat.pow 2 dst.bits))
    · rw [if_pos hsigned] at h
      cases h
      have hop : opcode? 0x83 = some (.group (dst.bits ≠ 8) true) := by
        rw [decide_eq_true hbyte]
        rfl
      change liesWithin (-128) 127 (v.toInt.bmod (2 ^ dst.bits)) = true at hsigned
      simp only [liesWithin, Bool.and_eq_true, decide_eq_true_eq] at hsigned
      have hvalue : Holds (2 ^ dst.bits) 1 (v.toInt.bmod (2 ^ dst.bits)) :=
        holds_of_signed (by omega)
      -- one byte holds the signed operand, which is the constant up to the width
      have hmod : v.toInt.bmod (2 ^ dst.bits) % 2 ^ dst.bits = v.toInt % 2 ^ dst.bits :=
        bmod_emod_of_dvd (by simp)
      simpa using reads_group op hop hdst rfl (hvalue.emod_eq.trans hmod)
    · rw [if_neg hsigned] at h
      cases h
      have hop : opcode? 0x81 = some (.group (dst.bits ≠ 8) false) := by
        rw [decide_eq_true hbyte]
        rfl
      have hwidth : min dst.bits 32 / 8 = if dst.bits = 16 then 2 else 4 := by
        rcases dst.bits_cases with h | h | h | h
        · exact absurd h hbyte
        all_goals rw [h]; rfl
      have hvalue : Holds (2 ^ dst.bits) (if dst.bits = 16 then 2 else 4) v.toInt := by
        rcases dst.bits_cases with h | h | h | h
        · exact absurd h hbyte
        · rw [h]
          exact holds_of_dvd (by decide) _
        · rw [h]
          exact holds_of_dvd (by decide) _
        · rw [if_pos h, if_pos h] at hrange
          rw [if_neg (by rw [h]; decide)]
          exact holds_of_fitsSigned32 hrange
      simpa using reads_group op hop hdst hwidth hvalue.emod_eq

/-! ## Branches -/

/-- A branch through a register is read back. -/
theorem reads_ofTargetRegister {digit : Nat} (hdigit : m = .jmp ∧ digit = 4 ∨ m = .call ∧ digit = 2)
    (hr : r.Operates mode) (h : ofTargetRegister mode digit r = .ok t) :
    t.Reads mode ⟨m, [.register r]⟩ := by
  obtain ⟨hbits, h⟩ := check_bind_eq_ok_iff.mp h
  cases h
  have hbits : r.bits = targetBits mode := of_decide_eq_true (Refusal.unless_eq_ok.mp hbits)
  have hop : opcode? 0xFF = some .indirect := rfl
  have hlong : (false || false || false || r.isExtended) → mode.isLong := by
    simpa using fun he => hr.isLong (by simp [he])
  have hread := register?_number hr.ne_rip
  rw [hbits] at hread
  refine reads_fixed fun ctx stop rest => ?_
  rw [List.append_assoc, List.cons_append, List.singleton_append]
  have happend : readInstruction mode stop (rexPrefix false false false r.isExtended ++
        0xFF :: modRM 3 digit r.code :: rest) =
      readOperands mode stop (.of mode 64 false false false r.isExtended)
        (modRM 3 digit r.code :: rest) .indirect :=
    @readInstruction_append mode 0xFF .indirect 64 false false false r.isExtended hlong hop nofun
      stop _
  rw [happend]
  simp only [readOperands, readTriple_modRM, stackBits_target, Prefixes.of_b, Register.code_mod,
    r.code_add, hread, Option.bind_eq_bind, Option.bind_some]
  rcases hdigit with ⟨rfl, rfl⟩ | ⟨rfl, rfl⟩ <;> rfl

/-- The distance in the field of a branch leads from the next instruction to the label. -/
theorem readBranch_fill {ctx : Context} {e : Encoded} {l : Label} {lead : List UInt8} {width : Nat}
    (hwidth : width = 1 ∨ width = nearBytes mode) (hctx : ctx.strict)
    (hread : ∀ stop bytes, readInstruction mode stop (lead ++ bytes) =
      readBranch mode stop m width bytes)
    (h : LabelField.fill mode ctx lead ⟨width, l, .relative, 0⟩ = .ok e) (rest : List UInt8) :
    readInstruction mode (ctx.address.toNat + (e.bytes ++ rest).length) (e.bytes ++ rest) =
      some (Instruction.normalForm mode ⟨m, [.label l]⟩ ctx e.bytes.length, rest) := by
  obtain ⟨target, htarget, hfits, hbytes, -⟩ := LabelField.fill_eq_ok hctx h
  simp only [LabelField.value, Int64.toInt_zero, Int.add_zero] at htarget hfits hbytes
  -- what the field stands for leads from the end of the instruction to the label
  have hheld := (holds_of_fieldFits hwidth hfits).emod_eq
  have hlabel : ctx.target l = target.toNat := by simp [Context.target, htarget]
  have hnext : ctx.address.toNat + (e.bytes ++ rest).length - rest.length =
      ctx.address.toNat + e.bytes.length := by
    rw [List.length_append]
    omega
  have hmod := Int.ModEq.add_left (ctx.address.toNat + e.bytes.length : Int) hheld
  have hsum : (ctx.address.toNat + e.bytes.length : Int) +
      (target.toNat - (ctx.address.toNat + e.bytes.length)) = ctx.target l := by
    rw [hlabel]
    omega
  rw [hsum] at hmod
  generalize ctx.address.toNat + (e.bytes ++ rest).length = stop at hnext ⊢
  generalize e.bytes.length = length at hbytes hmod hnext ⊢
  rw [hbytes, List.append_assoc, hread, readBranch, readSigned_append]
  simp only [Option.bind_eq_bind, Option.bind_some, hnext, Nat.cast_add]
  rw [hmod]
  rfl

/-- A branch to a label is read back, whether it is short or near. -/
theorem reads_branch {b : Branch} (hwidth : b.nearWidth = nearBytes mode)
    (hshort : ∀ opcode, b.short? = some opcode → opcode? opcode = some (.branch m true))
    (hnear : ∀ stop bytes, readInstruction mode stop (b.near ++ bytes) =
      readBranch mode stop m b.nearWidth bytes) :
    (branch b).Reads mode ⟨m, [.label b.label]⟩ := by
  intro ctx e rest hctx h
  have hnear := readBranch_fill (l := b.label) (e := e) (.inr hwidth) hctx hnear
  cases hs : b.short? with
  | none =>
    simp only [fill, settle, hs] at h
    exact hnear h rest
  | some opcode =>
    simp only [fill, settle, hs] at h
    by_cases htakes : b.takesShort ctx
    · rw [if_pos htakes] at h
      refine readBranch_fill (.inl rfl) hctx ?_ h rest
      exact fun stop bytes => readInstruction_cons (hshort opcode hs) (by simp) stop bytes
    · rw [if_neg htakes] at h
      exact hnear h rest

/-! ## Places in memory -/

/-- The fields of an operation on a register and a place in memory are read back. -/
theorem readOperand_addressing {place : MemoryOperand} (hr : r.Operates mode)
    (hplace : place.Exists mode)
    (hhigh : r.isHighByte →
      (r.isExtended || place.index.any Register.isExtended || place.base.any Register.isExtended) =
        false)
    {v : Int} (hv : Holds mode.addresses (place.addressing mode r.code).width v)
    (rest : List UInt8) :
    let p := Prefixes.of mode r.bits (r.bits = 64) r.isExtended
      (place.index.any Register.isExtended) (place.base.any Register.isExtended)
    ∃ form bytes,
      readTriple ((place.addressing mode r.code).lead ++
        (littleEndian (place.addressing mode r.code).width v ++ rest)) = some (form, bytes) ∧
      form.high ≠ 3 ∧
      p.register? mode (r.bits ≠ 8) (form.middle + 8 * p.r.toNat) = some r ∧
      p.readOperand mode (r.bits ≠ 8) form bytes = some (place.normalForm mode v, rest) := by
  intro p
  obtain ⟨head, tail, hlead, hmemory, hmiddle, hread⟩ :=
    Prefixes.readMemory_addressing (p := p) hplace rfl rfl r.code hv rest
  refine ⟨.ofByte head, tail ++ (littleEndian (place.addressing mode r.code).width v ++ rest),
    ?_, hmemory, ?_, ?_⟩
  · rw [hlead]
    rfl
  · rw [hmiddle, r.code_mod]
    exact r.code_add ▸ register?_of hr.ne_rip rfl hhigh
  · rw [Prefixes.readOperand, if_neg hmemory, ← List.append_assoc]
    exact hread

/-- Extended registers address memory in long mode only. -/
theorem isLong_of_addressing {place : MemoryOperand} (hplace : place.Exists mode)
    (h : place.index.any Register.isExtended ∨ place.base.any Register.isExtended) :
    mode.isLong := by
  rcases h with h | h
  · obtain ⟨index, hindex, hextended⟩ := (Option.any_eq_true _ _).mp h
    exact index.isLong_of_existsIn (hplace.index index hindex).1.existsIn (.inr hextended)
  · obtain ⟨base, hbase, hextended⟩ := (Option.any_eq_true _ _).mp h
    have hrip : base ≠ .rip := by
      rintro rfl
      cases hextended
    exact base.isLong_of_existsIn (hplace.base base hbase hrip).existsIn (.inr hextended)

/-- A store has the place first, a load the register. -/
theorem readInstruction_memory {opcode : UInt8} {place : MemoryOperand}
    (hop : opcode? opcode = some (.store m (r.bits ≠ 8)) ∧
        operands = [.memory place, .register r] ∨
      opcode? opcode = some (.load m (r.bits ≠ 8)) ∧ operands = [.register r, .memory place])
    (hr : r.Operates mode) (hplace : place.Exists mode)
    (hhigh : r.isHighByte →
      (r.isExtended || place.index.any Register.isExtended || place.base.any Register.isExtended) =
        false)
    {ctx : Context} {length : Nat}
    (hv : Holds mode.addresses (place.addressing mode r.code).width (place.fieldValue ctx length))
    (stop : Nat) (rest : List UInt8) :
    readInstruction mode stop (operandSizePrefix mode r.bits ++
        rexPrefix (r.bits = 64) r.isExtended (place.index.any Register.isExtended)
          (place.base.any Register.isExtended) ++
        opcode :: (place.addressing mode r.code).lead ++
        littleEndian (place.addressing mode r.code).width (place.fieldValue ctx length) ++ rest) =
      some (Instruction.normalForm mode ⟨m, operands⟩ ctx length, rest) := by
  -- a REX prefix is written in long mode only
  have hlong : (r.bits = 64 || r.isExtended || place.index.any Register.isExtended ||
      place.base.any Register.isExtended) → mode.isLong := by
    intro hc
    rw [Bool.or_assoc, Bool.or_eq_true] at hc
    rcases hc with hc | hc
    · exact hr.isLong hc
    · exact isLong_of_addressing hplace (by simpa using hc)
  obtain ⟨form, bytes, htriple, hform, hreg, hoperand⟩ :=
    readOperand_addressing hr hplace hhigh hv rest
  rw [List.append_assoc, List.append_assoc, List.cons_append]
  rcases hop with ⟨hop, rfl⟩ | ⟨hop, rfl⟩
  · rw [readInstruction_append hlong hop nofun]
    simp only [readOperands, htriple, hreg, hoperand, Option.bind_eq_bind, Option.bind_some]
    rfl
  · rw [readInstruction_append hlong hop nofun]
    simp only [readOperands, htriple, hreg, hoperand, Option.bind_eq_bind, Option.bind_some,
      decide_eq_false hform, Bool.and_false, Bool.false_eq_true, if_false]
    rfl

/-- An operation on a place in memory is read back, in both directions. -/
theorem reads_ofMemory {opcode : UInt8} {place : MemoryOperand}
    (hop : opcode? opcode = some (.store m (r.bits ≠ 8)) ∧
        operands = [.memory place, .register r] ∨
      opcode? opcode = some (.load m (r.bits ≠ 8)) ∧ operands = [.register r, .memory place])
    (hr : r.Operates mode) (hplace : place.Exists mode)
    (h : ofMemory mode opcode r place = .ok t) : t.Reads mode ⟨m, operands⟩ := by
  obtain ⟨hhigh, h⟩ := check_bind_eq_ok_iff.mp h
  have hhigh : r.isHighByte → (r.isExtended || place.index.any Register.isExtended ||
      place.base.any Register.isExtended) = false := by
    intro hbyte
    have hnone := Refusal.unless_eq_ok.mp hhigh
    simp only [hbyte, Bool.true_and, Bool.not_eq_true', Bool.or_eq_false_iff] at hnone
    simp [Register.isExtended_of_bits (r.bits_of_isHighByte hbyte), hnone]
  cases hlabel : place.label with
  | none =>
    simp only [hlabel] at h
    cases h
    refine reads_fixed fun ctx stop rest => ?_
    have hvalue : ∀ length, place.fieldValue ctx length = place.disp.toInt := fun length => by
      rw [MemoryOperand.fieldValue, hlabel]
    have hv : ∀ length, Holds mode.addresses (place.addressing mode r.code).width
        (place.fieldValue ctx length) := fun length => by
      rw [hvalue]
      exact hplace.holds_disp hlabel r.code
    have hread := fun length => readInstruction_memory hop hr hplace hhigh (hv length) stop rest
    simp only [hvalue] at hread
    exact hread _
  | some label =>
    simp only [hlabel] at h
    cases h
    intro ctx e rest hctx hfill
    obtain ⟨hwidth, hkind⟩ := hplace.addressing_label (by rw [hlabel]; rfl) r.code
    obtain ⟨target, htarget, hfits, hbytes, -⟩ := LabelField.fill_eq_ok hctx hfill
    have hvalue : LabelField.value ⟨(place.addressing mode r.code).width, label,
        (place.addressing mode r.code).kind, place.disp⟩ ctx e.bytes.length target =
          place.fieldValue ctx e.bytes.length := by
      simp only at htarget
      simp only [LabelField.value, MemoryOperand.fieldValue, hlabel, hkind, Context.target, htarget]
      cases place.isRipRelative <;> rfl
    -- the label field is read as the displacement that it stands for
    rw [hvalue] at hfits hbytes
    have hv := holds_of_fieldFits (.inr hwidth) hfits
    have hread := readInstruction_memory hop hr hplace hhigh hv
      (ctx.address.toNat + (e.bytes ++ rest).length) rest
    generalize ctx.address.toNat + (e.bytes ++ rest).length = stop at hread ⊢
    generalize e.bytes.length = length at hread hbytes ⊢
    rw [hbytes]
    exact hread

/-! ## Any instruction -/

/-- A near conditional branch is told by two bytes. -/
theorem readOpcode_escaped (c : Condition) (bytes : List UInt8) :
    readOpcode (0x0F :: .ofNat (0x80 + c.code) :: bytes) =
      some (.branch (.jcc c) false, bytes) := by
  cases c <;> rfl

/-- Behind its two bytes a near conditional branch is read as any other. -/
theorem readInstruction_escaped (c : Condition) (stop : Nat) (bytes : List UInt8) :
    readInstruction mode stop (0x0F :: .ofNat (0x80 + c.code) :: bytes) =
      readBranch mode stop (.jcc c) (nearBytes mode) bytes := by
  rw [readInstruction, readPrefixes_of_ne (by decide)]
  simp only [readRex, show isRex 0x0F = false from rfl, Bool.and_false, Bool.false_eq_true,
    if_false, readOpcode_escaped, Option.bind_eq_bind, Option.bind_some]
  rfl

/-- A move is read back, whatever its operands. -/
theorem reads_ofMove (hregister : ∀ r, .register r ∈ operands → r.Operates mode)
    (hmemory : ∀ place, .memory place ∈ operands → place.Exists mode)
    (h : ofMove mode operands = .ok t) : t.Reads mode ⟨.mov, operands⟩ := by
  unfold ofMove at h
  split at h
  · exact reads_ofRegisters (by decide) (hregister _ (by simp)) (hregister _ (by simp)) h
  · exact reads_ofMoveImmediate (hregister _ (by simp)) h
  · refine reads_ofMemory (.inr ⟨?_, rfl⟩) (hregister _ (by simp)) (hmemory _ (by simp)) h
    split <;> simp [*] <;> rfl
  · refine reads_ofMemory (.inl ⟨?_, rfl⟩) (hregister _ (by simp)) (hmemory _ (by simp)) h
    split <;> simp [*] <;> rfl
  · cases h

/-- Arithmetic is read back, whatever its operands. -/
theorem reads_ofAlu {op : AluOp} (hregister : ∀ r, .register r ∈ operands → r.Operates mode)
    (h : ofAlu mode op operands = .ok t) : t.Reads mode ⟨.alu op, operands⟩ := by
  unfold ofAlu at h
  split at h
  · refine reads_ofRegisters ?_ (hregister _ (by simp)) (hregister _ (by simp)) h
    cases op <;> decide
  · exact reads_ofAluImmediate (hregister _ (by simp)) h
  · cases h

/-- Every template of operands that exist in the mode reads back. -/
theorem reads_ofOperands (hcheck : ∀ o ∈ operands, o.check mode = .ok ())
    (h : ofOperands mode m operands = .ok t) : t.Reads mode ⟨m, operands⟩ := by
  have hregister : ∀ r, .register r ∈ operands → r.Operates mode :=
    fun r hr => Register.operates_of_check (hcheck _ hr)
  have hmemory : ∀ place, .memory place ∈ operands → place.Exists mode :=
    fun place hplace => MemoryOperand.exists_of_check (hcheck _ hplace)
  cases m with
  | nop => exact reads_ofOpcode (by rfl) h
  | int3 => exact reads_ofOpcode (by rfl) h
  | hlt => exact reads_ofOpcode (by rfl) h
  | ret => exact reads_ofReturn h
  | push => exact reads_ofStackOp (by decide) hcheck h
  | pop => exact reads_ofStackOp (by decide) hcheck h
  | mov => exact reads_ofMove hregister hmemory h
  | alu op => exact reads_ofAlu hregister h
  | lea =>
    simp only [ofOperands, ofLoadAddress] at h
    split at h
    · obtain ⟨hbyte, h⟩ := check_bind_eq_ok_iff.mp h
      have hop : opcode? 0x8D = some (.load .lea true) := rfl
      -- the opcode is that of the wide form, as byte registers are refused
      rw [← Refusal.unless_eq_ok.mp hbyte] at hop
      exact reads_ofMemory (.inr ⟨hop, rfl⟩) (hregister _ (by simp)) (hmemory _ (by simp)) h
    · cases h
  | jmp =>
    simp only [ofOperands, ofJump] at h
    split at h
    · cases h
      have hshort : opcode? 0xEB = some (.branch .jmp true) := rfl
      have hnear : opcode? 0xE9 = some (.branch .jmp false) := rfl
      exact reads_branch rfl (by simpa using hshort) (readInstruction_cons hnear (by simp))
    · exact reads_ofTargetRegister (.inl ⟨rfl, rfl⟩) (hregister _ (by simp)) h
    · cases h
  | call =>
    simp only [ofOperands, ofCall] at h
    split at h
    · cases h
      have hnear : opcode? 0xE8 = some (.branch .call false) := rfl
      exact reads_branch rfl (by simp) (readInstruction_cons hnear (by simp))
    · exact reads_ofTargetRegister (.inr ⟨rfl, rfl⟩) (hregister _ (by simp)) h
    · cases h
  | jcc c =>
    simp only [ofOperands, ofConditionalJump] at h
    split at h
    · cases h
      have hshort : opcode? (.ofNat (0x70 + c.code)) = some (.branch (.jcc c) true) := by
        cases c <;> rfl
      exact reads_branch rfl (by simpa using hshort) (readInstruction_escaped c)
    · cases h

end Template

/-- Every instruction that has a template is read back from it. -/
theorem Instruction.reads_template {i : Instruction} (h : i.template mode = .ok t) :
    t.Reads mode i := by
  obtain ⟨hcheck, h⟩ := check_bind_eq_ok_iff.mp h
  exact Template.reads_ofOperands (forM_eq_ok_iff.mp hcheck) h

/-- The decoder gets back an instruction that is encoded in front of any bytes, and stops behind it.
-/
theorem Instruction.decode_append {i : Instruction} {ctx : Context} {e : Encoded}
    (hctx : ctx.strict) (h : i.encode mode ctx = .ok e) (rest : List UInt8) :
    decode mode ctx.address (e.bytes ++ rest) =
      some (i.normalForm mode ctx e.bytes.length, e.bytes.length) := by
  obtain ⟨t, ht, hfill⟩ := encode_eq_ok h
  rw [decode, reads_template ht ctx e rest hctx hfill]
  simp

/-- The encoder is uniquely decodable. Decoding gives the normal form of the instruction and its
length, whatever follows. So at one address no encoding begins another one, and instructions share
their bytes only if they have the same normal form. -/
theorem Instruction.uniquely_decodable (mode : Mode) :
    (∀ (i : Instruction) (ctx : Context) (e : Encoded) (rest : List UInt8),
      ctx.strict → i.encode mode ctx = .ok e →
        decode mode ctx.address (e.bytes ++ rest) =
          some (i.normalForm mode ctx e.bytes.length, e.bytes.length)) ∧
    ∀ (i₁ i₂ : Instruction) (ctx₁ ctx₂ : Context) (e₁ e₂ : Encoded),
      ctx₁.strict → ctx₂.strict → ctx₁.address = ctx₂.address →
        i₁.encode mode ctx₁ = .ok e₁ → i₂.encode mode ctx₂ = .ok e₂ → e₁.bytes <+: e₂.bytes →
          e₁.bytes = e₂.bytes ∧
            i₁.normalForm mode ctx₁ e₁.bytes.length = i₂.normalForm mode ctx₂ e₂.bytes.length := by
  refine ⟨fun i ctx e rest hctx h => decode_append hctx h rest, ?_⟩
  intro i₁ i₂ ctx₁ ctx₂ e₁ e₂ hctx₁ hctx₂ haddress h₁ h₂ hbegins
  -- the bytes of the second decode as the first with something behind it, and as the second
  obtain ⟨rest, hbytes⟩ := hbegins
  have hdecode₁ := decode_append hctx₁ h₁ rest
  have hdecode₂ := decode_append hctx₂ h₂ []
  rw [List.append_nil, ← haddress, ← hbytes, hdecode₁, Option.some_inj, Prod.mk.injEq] at hdecode₂
  obtain ⟨hform, hlength⟩ := hdecode₂
  have hrest : rest = [] := by simpa using hlength
  rw [hrest, List.append_nil] at hbytes hform
  exact ⟨hbytes, hbytes ▸ hform⟩

/-- A constant of all ones and a constant of minus one are the same to 32 bits, so the additions
may share their bytes. -/
theorem Instruction.uniquely_decodable_add :
    let ctx : Context := { address := 0x1000, resolve := fun _ => none, strict := true }
    let ones : Instruction := ⟨.alu .add, [.register (.dword 0), .immediate 0xFFFFFFFF]⟩
    let minus : Instruction := ⟨.alu .add, [.register (.dword 0), .immediate (-1)]⟩
    ones.encode .long64 ctx = .ok ⟨[0x83, 0xC0, 0xFF], none⟩ ∧
      minus.encode .long64 ctx = .ok ⟨[0x83, 0xC0, 0xFF], none⟩ ∧
      decode .long64 0x1000 [0x83, 0xC0, 0xFF, 0xC3] = some (ones.normalForm .long64 ctx 3, 3) ∧
      ones.normalForm .long64 ctx 3 = minus.normalForm .long64 ctx 3 := by
  intro ctx ones minus
  have hones : ones.encode .long64 ctx = .ok ⟨[0x83, 0xC0, 0xFF], none⟩ := by rfl
  have hminus : minus.encode .long64 ctx = .ok ⟨[0x83, 0xC0, 0xFF], none⟩ := by rfl
  obtain ⟨hdecode, hunique⟩ := uniquely_decodable .long64
  exact ⟨hones, hminus, hdecode ones ctx _ [0xC3] rfl hones,
    (hunique ones minus ctx ctx _ _ rfl rfl rfl hones hminus List.prefix_rfl).2⟩

end X86Asm
