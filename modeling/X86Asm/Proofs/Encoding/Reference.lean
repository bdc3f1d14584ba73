import X86Asm.Proofs.Encoding.Jump
import X86Asm.Proofs.Encoding.Memory

/-!
# What the label field of an instruction holds

An operand that mentions a label asks for its address in a certain way: relative to the next
instruction or absolute, and with a constant added (`Operand.reference?`). In a strict context an
instruction that is encoded ends in a field that holds just that (`Instruction.encode_field`). The
field has one byte in the short form of a jump, and else as many as near branches have in the mode.
-/

namespace X86Asm

variable {mode : Mode} {i : Instruction} {t : Template} {ctx : Context} {e : Encoded}
  {lead : List UInt8} {field : LabelField} {width : Nat} {v : Int}

/-- How the address of a label enters an instruction. -/
structure Reference where
  /-- The label. -/
  label : Label
  /-- Whether it is the distance from the next instruction that is meant. -/
  kind : FixupKind
  /-- The constant that is added to the address. -/
  addend : Int64

/-- What an operand that mentions a label asks for. -/
def Operand.reference? : Operand → Option Reference
  | label l => some ⟨l, .relative, 0⟩
  | memory m =>
    m.label.map fun l => ⟨l, if m.isRipRelative then .relative else .absolute, m.disp⟩
  | register _ | immediate _ => none

/-- What the first operand that mentions a label asks for. -/
def Instruction.reference? (i : Instruction) : Option Reference :=
  i.operands.findSome? Operand.reference?

/-- What a field asks for. -/
def LabelField.reference (field : LabelField) : Reference := ⟨field.label, field.kind, field.addend⟩

/-- Of a register and a place in memory the place is what refers to a label. -/
theorem Operand.AreMemory.reference? {operands : List Operand} {m : MemoryOperand}
    (h : AreMemory operands m) :
    operands.findSome? Operand.reference? = Operand.reference? (.memory m) := by
  obtain ⟨r, rfl | rfl⟩ := h <;>
    cases hm : m.label <;> simp [List.findSome?_cons, Operand.reference?, hm]

/-- The place in memory is one of the operands. -/
theorem Operand.AreMemory.mem {operands : List Operand} {m : MemoryOperand}
    (h : AreMemory operands m) : .memory m ∈ operands := by
  obtain ⟨r, rfl | rfl⟩ := h <;> simp

/-- The field of an instruction is for what its operands ask for. -/
theorem Instruction.reference?_of_settle (ht : i.template mode = .ok t)
    (hs : t.settle ctx = (lead, some field)) :
    i.reference? = some field.reference ∧
      (field.kind = .relative ∧ field.width = 1 ∨ field.width = Template.nearBytes mode) := by
  unfold reference?
  cases i.shape_template ht with
  | fixed bytes hnone => cases hs
  | @labelled lead m l reg hoperands hlabel =>
    cases hs
    -- the operand was looked at before the template was made
    obtain ⟨hchecked, -⟩ := check_bind_eq_ok_iff.mp ht
    have hm := MemoryOperand.exists_of_check (forM_eq_ok_iff.mp hchecked _ hoperands.mem)
    obtain ⟨hwidth, hkind⟩ := hm.addressing_label (by rw [hlabel]; rfl) reg
    refine ⟨?_, .inr hwidth⟩
    rw [hoperands.reference?, Operand.reference?, hlabel, LabelField.reference, hkind]
    rfl
  | @branch b hoperands hwidth hlead =>
    rw [hoperands]
    by_cases hshort : b.takesShort ctx
    · obtain ⟨opcode, hsettle⟩ := Branch.settle_of_short hshort
      cases hsettle.symm.trans hs
      exact ⟨rfl, .inl ⟨rfl, rfl⟩⟩
    · cases (Branch.settle_of_near hshort).symm.trans hs
      exact ⟨rfl, .inr hwidth⟩

/-- In a strict context an instruction that mentions a label ends in a field for it, which may hold
its value. -/
theorem Instruction.encode_field (hctx : ctx.strict) (h : i.encode mode ctx = .ok e) :
    (i.label? = none ∧ e.fixup = none) ∨
      ∃ (lead : List UInt8) (field : LabelField) (target : UInt64),
        i.label? = some field.label ∧ i.reference? = some field.reference ∧
        (field.kind = .relative ∧ field.width = 1 ∨ field.width = Template.nearBytes mode) ∧
        ctx.resolve field.label = some target ∧
        fieldFits mode field.kind field.width (field.value ctx e.bytes.length target) ∧
        e.bytes = lead ++ littleEndian field.width (field.value ctx e.bytes.length target) ∧
        e.fixup = some ⟨lead.length, field.width, field.label, field.kind, 0, true⟩ := by
  obtain ⟨t, ht, hfill⟩ := encode_eq_ok h
  rw [label?_of_template ht]
  rcases Template.fill_eq_ok hfill with ⟨bytes, hs, rfl⟩ | ⟨lead, field, hs, hfield⟩
  · exact .inl ⟨Template.label?_of_settle_none hs, rfl⟩
  · obtain ⟨target, htarget, hfits, hbytes, hfixup⟩ := LabelField.fill_eq_ok hctx hfield
    obtain ⟨hreference, hwidth⟩ := reference?_of_settle ht hs
    exact .inr ⟨lead, field, target, Template.label?_of_settle hs, hreference, hwidth, htarget,
      hfits, hbytes, hfixup⟩

/-- A field that the processor extends by its sign holds its value exactly. -/
theorem bmod_of_fieldFits {kind : FixupKind} (hsigned : width = 1 ∨ width = 4 ∧ mode.isLong)
    (h : fieldFits mode kind width v) : v.bmod (256 ^ width) = v := by
  rcases hsigned with rfl | ⟨rfl, hlong⟩
  · have hrange : fieldRange? mode kind 1 = some (-0x80, 0x7F) := rfl
    simp only [fieldFits, hrange, liesWithin, Bool.and_eq_true, decide_eq_true_eq] at h
    exact Int.bmod_eq_of_le_mul_two (by omega) (by omega)
  · have hrange : fieldRange? mode kind 4 = some (-0x80000000, 0x7FFFFFFF) := by
      simp [fieldRange?, hlong]
    simp only [fieldFits, hrange, liesWithin, Bool.and_eq_true, decide_eq_true_eq] at h
    exact Int.bmod_eq_of_le_mul_two (by omega) (by omega)

end X86Asm
