import X86Asm.Proofs.Encoding.Fields
import X86Asm.Proofs.Encoding.Length

/-!
# How long an instruction can be

Prefixes, the bytes that address an operand and the constants of an instruction are few, so that no
template has more than 15 bytes, and none is empty (`Instruction.bounded_template`). The label field
of an encoded instruction lies within it (`Instruction.field_within`).
-/

namespace X86Asm

variable {mode : Mode} {i : Instruction} {t : Template} {ctx : Context} {e : Encoded}

/-- The template has at least one byte and at most 15, whatever form it takes, and its label field
takes four bytes at most. -/
def Template.Bounded : Template → Prop
  | .fixed bytes => 0 < bytes.length ∧ bytes.length ≤ 15
  | .labelled lead field => 0 < lead.length ∧ lead.length + field.width ≤ 15 ∧ field.width ≤ 4
  | .branch b => 0 < b.near.length ∧ b.near.length + b.nearWidth ≤ 15 ∧ b.nearWidth ≤ 4

/-! ## Parts -/

/-- There is at most one operand-size prefix. -/
theorem length_operandSizePrefix_le (mode : Mode) (bits : Nat) :
    (operandSizePrefix mode bits).length ≤ 1 := by
  unfold operandSizePrefix
  split <;> simp

/-- There is at most one REX prefix. -/
theorem length_rexPrefix_le (w r x b : Bool) : (rexPrefix w r x b).length ≤ 1 := by
  unfold rexPrefix
  split <;> simp

/-- A place in memory takes at most a ModR/M and a SIB byte, its displacement aside. -/
theorem MemoryOperand.length_addressing_le (m : MemoryOperand) (mode : Mode) (reg : Nat) :
    (m.addressing mode reg).lead.length ≤ 2 := by
  unfold addressing Addressing.ofBase
  grind

/-- No register is wider than 64 bits. -/
theorem Register.bits_le (r : Register) : r.bits ≤ 64 := by
  rcases r.bits_cases with h | h | h | h <;> omega

/-- A near branch holds at most four bytes of distance. -/
theorem Template.nearBytes_le (mode : Mode) : nearBytes mode ≤ 4 := by
  cases mode <;> decide

/-! ## Templates -/

namespace Template

/-- An operation on a place in memory has a bounded template. -/
theorem bounded_ofMemory {opcode : UInt8} {r : Register} {m : MemoryOperand}
    (h : ofMemory mode opcode r m = .ok t) : t.Bounded := by
  have hsize := length_operandSizePrefix_le mode r.bits
  have hrex := length_rexPrefix_le (r.bits = 64) r.isExtended (m.index.any Register.isExtended)
    (m.base.any Register.isExtended)
  have hlead := m.length_addressing_le mode r.code
  have hwidth := m.width_addressing_le mode r.code
  obtain ⟨-, h⟩ := check_bind_eq_ok_iff.mp h
  split at h
  · cases h
    simp only [Bounded, List.length_append, List.length_cons, length_littleEndian]
    omega
  · cases h
    simp only [Bounded, List.length_append, List.length_cons]
    omega

/-- An operation on two registers has a bounded template. -/
theorem bounded_ofRegisters {opcode : Nat} {dst src : Register}
    (h : ofRegisters mode opcode dst src = .ok t) : t.Bounded := by
  have hsize := length_operandSizePrefix_le mode src.bits
  have hrex := length_rexPrefix_le (src.bits = 64) src.isExtended false dst.isExtended
  obtain ⟨-, h⟩ := check_bind_eq_ok_iff.mp h
  cases h
  simp only [Bounded, List.length_append, List.length_cons, List.length_nil]
  omega

/-- Pushing and popping have bounded templates. -/
theorem bounded_ofStackOp {opcode : Nat} {operands : List Operand}
    (h : ofStackOp mode opcode operands = .ok t) : t.Bounded := by
  unfold ofStackOp at h
  split at h
  · rename_i r
    have hsize := length_operandSizePrefix_le mode r.bits
    have hrex := length_rexPrefix_le false false false r.isExtended
    obtain ⟨-, h⟩ := check_bind_eq_ok_iff.mp h
    cases h
    simp only [Bounded, List.length_append, List.length_cons, List.length_nil]
    omega
  · cases h

/-- Moving a constant has a bounded template, as wide as the constant may be. -/
theorem bounded_ofMoveImmediate {dst : Register} {v : Int64}
    (h : ofMoveImmediate mode dst v = .ok t) : t.Bounded := by
  have hsize := length_operandSizePrefix_le mode dst.bits
  have hrex := length_rexPrefix_le (dst.bits = 64) false false dst.isExtended
  have hrex' := length_rexPrefix_le true false false dst.isExtended
  have hbits := dst.bits_le
  obtain ⟨-, h⟩ := check_bind_eq_ok_iff.mp h
  split at h <;> try split at h
  all_goals
    cases h
    simp only [Bounded, List.length_append, List.length_cons, List.length_nil, length_littleEndian]
    omega

/-- Arithmetic with a constant has a bounded template. -/
theorem bounded_ofAluImmediate {op : AluOp} {dst : Register} {v : Int64}
    (h : ofAluImmediate mode op dst v = .ok t) : t.Bounded := by
  have hsize := length_operandSizePrefix_le mode dst.bits
  have hrex := length_rexPrefix_le (dst.bits = 64) false false dst.isExtended
  have hwide : (if dst.bits = 16 then 2 else 4) ≤ 4 := by split <;> decide
  obtain ⟨-, h⟩ := check_bind_eq_ok_iff.mp h
  by_cases hbyte : dst.bits = 8
  · rw [if_pos hbyte] at h
    cases h
    simp only [Bounded, List.length_append, List.length_cons, List.length_nil, length_littleEndian]
    omega
  · rw [if_neg hbyte] at h
    by_cases hshort : liesWithin (-128) 127 (v.toInt.bmod (Nat.pow 2 dst.bits))
    · rw [if_pos hshort] at h
      cases h
      simp only [Bounded, List.length_append, List.length_cons, List.length_nil,
        length_littleEndian]
      omega
    · rw [if_neg hshort] at h
      cases h
      simp only [Bounded, List.length_append, List.length_cons, List.length_nil,
        length_littleEndian]
      omega

/-- A branch through a register has a bounded template. -/
theorem bounded_ofTargetRegister {digit : Nat} {r : Register}
    (h : ofTargetRegister mode digit r = .ok t) : t.Bounded := by
  have hrex := length_rexPrefix_le false false false r.isExtended
  obtain ⟨-, h⟩ := check_bind_eq_ok_iff.mp h
  cases h
  simp only [Bounded, List.length_append, List.length_cons, List.length_nil]
  omega

/-- A near branch has at most two bytes of opcode. -/
theorem bounded_branch {short? : Option UInt8} {near : List UInt8} {l : Label}
    (hnear : 0 < near.length ∧ near.length ≤ 2) :
    (Template.branch ⟨short?, near, nearBytes mode, l⟩).Bounded := by
  have := nearBytes_le mode
  simp only [Bounded]
  omega

/-- Every operation has a bounded template, whatever its operands. -/
theorem bounded_ofOperands {m : Mnemonic} {operands : List Operand}
    (h : ofOperands mode m operands = .ok t) : t.Bounded := by
  cases m with
  | jmp =>
    simp only [ofOperands, ofJump] at h
    split at h
    · cases h
      exact bounded_branch (by decide)
    · exact bounded_ofTargetRegister h
    · cases h
  | call =>
    simp only [ofOperands, ofCall] at h
    split at h
    · cases h
      exact bounded_branch (by decide)
    · exact bounded_ofTargetRegister h
    · cases h
  | jcc c =>
    simp only [ofOperands, ofConditionalJump] at h
    split at h
    · cases h
      exact bounded_branch (by simp)
    · cases h
  | nop | int3 | hlt =>
    simp only [ofOperands, ofOpcode] at h
    split at h
    · cases h
      simp [Bounded]
    · cases h
  | ret =>
    simp only [ofOperands, ofReturn] at h
    split at h
    · cases h
      simp [Bounded]
    · obtain ⟨-, h⟩ := check_bind_eq_ok_iff.mp h
      cases h
      simp [Bounded]
    · cases h
  | push | pop => exact bounded_ofStackOp h
  | mov =>
    simp only [ofOperands, ofMove] at h
    split at h
    · exact bounded_ofRegisters h
    · exact bounded_ofMoveImmediate h
    · exact bounded_ofMemory h
    · exact bounded_ofMemory h
    · cases h
  | lea =>
    simp only [ofOperands, ofLoadAddress] at h
    split at h
    · obtain ⟨-, h⟩ := check_bind_eq_ok_iff.mp h
      exact bounded_ofMemory h
    · cases h
  | alu op =>
    simp only [ofOperands, ofAlu] at h
    split at h
    · exact bounded_ofRegisters h
    · exact bounded_ofAluImmediate h
    · cases h

/-- What a bounded template settles for is bounded. -/
theorem Bounded.settle (h : t.Bounded) (ctx : Context) :
    0 < (t.settle ctx).1.length ∧
      (t.settle ctx).1.length + (t.settle ctx).2.elim 0 LabelField.width ≤ 15 ∧
      ∀ field ∈ (t.settle ctx).2, field.width ≤ 4 := by
  cases t with
  | fixed bytes => exact ⟨h.1, h.2, nofun⟩
  | labelled lead field =>
    refine ⟨h.1, h.2.1, ?_⟩
    rintro _ ⟨⟩
    exact h.2.2
  | branch b =>
    by_cases hshort : b.takesShort ctx
    · obtain ⟨opcode, hs⟩ := Branch.settle_of_short hshort
      rw [hs]
      refine ⟨Nat.one_pos, by simp, ?_⟩
      rintro _ ⟨⟩
      exact Nat.one_le_ofNat
    · rw [Branch.settle_of_near hshort]
      refine ⟨h.1, h.2.1, ?_⟩
      rintro _ ⟨⟩
      exact h.2.2

end Template

/-! ## Instructions -/

/-- Every instruction that has a template has a bounded one. -/
theorem Instruction.bounded_template (h : i.template mode = .ok t) : t.Bounded := by
  obtain ⟨-, -, h⟩ := bind_eq_ok_iff.mp h
  exact Template.bounded_ofOperands h

/-- An encoded instruction has at least one byte and at most 15. -/
theorem Instruction.length_bounds (h : i.encode mode ctx = .ok e) :
    1 ≤ e.bytes.length ∧ e.bytes.length ≤ 15 := by
  obtain ⟨t, ht, -⟩ := encode_eq_ok h
  obtain ⟨hpos, hle, -⟩ := (bounded_template ht).settle ctx
  rw [length_of_encode ht h, Template.length_settle]
  omega

/-- The label field of an encoded instruction lies within it, and the bytes behind it are counted
rightly. -/
theorem Instruction.field_within (h : i.encode mode ctx = .ok e) {f : Fixup}
    (hf : e.fixup = some f) :
    f.offset + f.width + f.trailing = e.bytes.length := by
  obtain ⟨t, -, hfill⟩ := encode_eq_ok h
  rcases Template.fill_eq_ok hfill with ⟨bytes, -, rfl⟩ | ⟨lead, field, -, hfield⟩
  · cases hf
  · have hfixup := (LabelField.fill_eq_ok_iff.mp hfield).fixup_eq
    obtain rfl := Option.some.inj (hfixup.symm.trans hf)
    rw [LabelField.length_of_fill hfield]
    rfl

end X86Asm
