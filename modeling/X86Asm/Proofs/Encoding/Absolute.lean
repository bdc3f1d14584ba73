import X86Asm.Proofs.Encoding.Fixup

/-!
# Absolute addresses

A memory operand without registers stands for an address. It is a constant, or the address of a
label with a constant added. The instruction is the same for both up to the address itself
(`Instruction.exists_lead`), but the address is judged by different rules: a constant before
anything is known of the place of the instruction, and a label when its field is filled.

In long mode the processor extends the four bytes of the address by their sign. The sum of a label
and a constant is not wrapped around before it is judged, so the highest addresses are within reach
as negative numbers only (`Instruction.encode_absolute`). A constant is taken where a label at that
address is, except that it stops in the middle of a 32-bit address space
(`Instruction.absolute_agrees`).
-/

namespace X86Asm

variable {mode : Mode} {mnemonic : Mnemonic} {before after operands : List Operand}
  {i : Instruction} {m : MemoryOperand} {l : Label} {t : Template} {ctx : Context} {e : Encoded}
  {target : UInt64} {v : Int}

/-! ## Templates -/

namespace MemoryOperand

/-- The operand has no registers. -/
structure IsAbsolute (m : MemoryOperand) : Prop where
  base_eq : m.base = none
  index_eq : m.index = none

/-- What the bytes in front of an address and the address make up. -/
def close (mode : Mode) (m : MemoryOperand) (lead : List UInt8) : Template :=
  match m.label with
  | none => .fixed (lead ++ littleEndian (Template.nearBytes mode) m.disp.toInt)
  | some l => .labelled lead ⟨Template.nearBytes mode, l, .absolute, m.disp⟩

/-- All absolute operands have the same addressing form. -/
theorem exists_addressing (mode : Mode) (reg : Nat) :
    ∃ lead, ∀ m : MemoryOperand, m.IsAbsolute →
      m.addressing mode reg = ⟨lead, Template.nearBytes mode, .absolute⟩ := by
  -- without registers nothing else of the operand is looked at
  refine ⟨((absolute 0).addressing mode reg).lead, fun m hm => ?_⟩
  unfold addressing
  rw [hm.base_eq, hm.index_eq]
  cases mode <;> rfl

/-- An absolute operand exists if its scale does, and its constant fits or comes with a label. -/
theorem IsAbsolute.check_eq_ok (hm : m.IsAbsolute) :
    m.check mode = .ok () ↔ m.scale ∈ [1, 2, 4, 8] ∧ (m.dispFits mode || m.label.isSome) := by
  have hregs : [].forM (Register.checkAddress mode) = .ok () := rfl
  unfold check isRipRelative
  simp only [hm.base_eq, hm.index_eq, check_bind_eq_ok_iff, Refusal.unless_eq_ok]
  simp [hregs]

/-- A constant stands alone. -/
theorem check_absolute (mode : Mode) (disp : Int64) :
    (absolute disp).check mode = .ok () ↔ (absolute disp).dispFits mode = true := by
  have habsolute : (absolute disp).IsAbsolute := ⟨rfl, rfl⟩
  rw [habsolute.check_eq_ok]
  simp [absolute]

/-- The address of a label is looked at later. -/
theorem check_ofLabel (mode : Mode) (l : Label) : (ofLabel l).check mode = .ok () := by
  have habsolute : (ofLabel l).IsAbsolute := ⟨rfl, rfl⟩
  rw [habsolute.check_eq_ok]
  simp [ofLabel]

end MemoryOperand

namespace Template

/-- Nothing but the address depends on which absolute operand an operation has. -/
theorem exists_lead_ofMemory (mode : Mode) (opcode : UInt8) (r : Register) :
    ∃ lead, ∀ m : MemoryOperand, m.IsAbsolute →
      ofMemory mode opcode r m = .ok (m.close mode lead) := by
  obtain ⟨form, hform⟩ := MemoryOperand.exists_addressing mode r.code
  refine ⟨operandSizePrefix mode r.bits ++ rexPrefix (r.bits = 64) r.isExtended false false ++
    opcode :: form, fun m hm => ?_⟩
  unfold ofMemory MemoryOperand.close
  rw [hform m hm, hm.base_eq, hm.index_eq]
  cases m.label <;> simp [Refusal.unless]

/-- What takes a place in memory is an operation on that and a register, whatever the place is. -/
theorem exists_ofMemory (h : ofOperands mode mnemonic operands = .ok t)
    (hmem : .memory m ∈ operands) :
    ∃ opcode r,
      (operands = [.register r, .memory m] ∧
        ∀ m', ofOperands mode mnemonic [.register r, .memory m'] = ofMemory mode opcode r m') ∨
      (operands = [.memory m, .register r] ∧
        ∀ m', ofOperands mode mnemonic [.memory m', .register r] = ofMemory mode opcode r m') := by
  cases mnemonic with
  | mov =>
    simp only [ofOperands, ofMove] at h
    split at h
    · simp at hmem
    · simp at hmem
    · obtain rfl : m = _ := by simpa using hmem
      exact ⟨_, _, .inl ⟨rfl, fun _ => rfl⟩⟩
    · obtain rfl : m = _ := by simpa using hmem
      exact ⟨_, _, .inr ⟨rfl, fun _ => rfl⟩⟩
    · cases h
  | lea =>
    simp only [ofOperands, ofLoadAddress] at h
    split at h
    · rename_i dst _
      obtain rfl : m = _ := by simpa using hmem
      obtain ⟨hbits, -⟩ := check_bind_eq_ok_iff.mp h
      refine ⟨0x8D, dst, .inl ⟨rfl, fun m' => ?_⟩⟩
      simp only [ofOperands, ofLoadAddress, hbits]
      rfl
    · cases h
  | _ =>
    -- the other operations take no place in memory
    simp only [ofOperands, ofOpcode, ofReturn, ofStackOp, ofAlu, ofJump, ofCall,
      ofConditionalJump] at h
    split at h <;> first | simp at hmem | cases h

/-- Any absolute operand can stand in the place of a memory operand. -/
theorem exists_lead (h : ofOperands mode mnemonic (before ++ .memory m :: after) = .ok t) :
    ∃ lead, ∀ m' : MemoryOperand, m'.IsAbsolute →
      ofOperands mode mnemonic (before ++ .memory m' :: after) = .ok (m'.close mode lead) := by
  obtain ⟨opcode, r, hplace⟩ := exists_ofMemory h (List.mem_append_right before List.mem_cons_self)
  obtain ⟨lead, hlead⟩ := exists_lead_ofMemory mode opcode r
  refine ⟨lead, fun m' hm' => ?_⟩
  rw [← hlead m' hm']
  rcases hplace with ⟨hoperands, hplace⟩ | ⟨hoperands, hplace⟩
  · obtain ⟨rfl, rfl⟩ : before = [.register r] ∧ after = [] := by
      simpa [List.append_eq_cons_iff, List.cons_eq_append_iff] using hoperands
    exact hplace m'
  · obtain ⟨rfl, rfl⟩ : before = [] ∧ after = [.register r] := by
      simpa [List.append_eq_cons_iff, List.cons_eq_append_iff] using hoperands
    exact hplace m'

end Template

namespace Instruction

/-- The memory operands of an instruction that exists exist. -/
theorem check_of_mem (ht : i.template mode = .ok t) (hmem : .memory m ∈ i.operands) :
    m.check mode = .ok () :=
  forM_eq_ok_iff.mp (check_bind_eq_ok_iff.mp ht).1 (.memory m) hmem

/-- The bytes in front of the address, whichever absolute operand stands between two others. -/
def HasLead (mode : Mode) (mnemonic : Mnemonic) (before after : List Operand)
    (lead : List UInt8) : Prop :=
  ∀ m : MemoryOperand, m.IsAbsolute → m.check mode = .ok () →
    Instruction.template mode ⟨mnemonic, before ++ .memory m :: after⟩ = .ok (m.close mode lead)

/-- Any absolute operand that exists can stand in the place of a memory operand. -/
theorem exists_lead
    (h : Instruction.template mode ⟨mnemonic, before ++ .memory m :: after⟩ = .ok t) :
    ∃ lead, HasLead mode mnemonic before after lead := by
  obtain ⟨hchecked, h⟩ := check_bind_eq_ok_iff.mp h
  obtain ⟨lead, hlead⟩ := Template.exists_lead h
  refine ⟨lead, fun m' hm' hcheck => check_bind_eq_ok_iff.mpr ⟨?_, hlead m' hm'⟩⟩
  -- the other operands are checked as before
  rw [checkOperands, forM_eq_ok_iff] at hchecked ⊢
  intro operand hmem
  simp only [List.mem_append, List.mem_cons] at hchecked hmem
  rcases hmem with hmem | rfl | hmem
  · exact hchecked operand (.inl hmem)
  · exact hcheck
  · exact hchecked operand (.inr (.inr hmem))

end Instruction

/-! ## The address of a label -/

/-- In a strict context a field whose label is known holds its value, or that is out of range. -/
theorem LabelField.fill_of_resolve {field : LabelField} {lead : List UInt8}
    (hstrict : ctx.strict = true) (htarget : ctx.resolve field.label = some target) :
    field.fill mode ctx lead =
      let v := field.value ctx (lead.length + field.width) target
      if fieldFits mode field.kind field.width v then
        .ok ⟨lead ++ littleEndian field.width v, some (field.fixup ctx lead)⟩
      else .error (.displacementOutOfRange field.label.id (Int64.ofInt v)
        (UInt8.ofNat field.width)) := by
  unfold fill fixup
  simp only [htarget, hstrict]
  cases fieldFits mode field.kind field.width
    (field.value ctx (lead.length + field.width) target) <;> rfl

/-- An instruction with the address of a label, where the label is known. -/
theorem Instruction.encode_close {lead : List UInt8}
    (ht : i.template mode = .ok (m.close mode lead)) (hlabel : m.label = some l)
    (hstrict : ctx.strict = true) (htarget : ctx.resolve l = some target) :
    let field : LabelField := ⟨Template.nearBytes mode, l, .absolute, m.disp⟩
    let address : Int := target.toNat + m.disp.toInt
    i.encode mode ctx =
      if fieldFits mode .absolute field.width address then
        .ok ⟨lead ++ littleEndian field.width address, some (field.fixup ctx lead)⟩
      else .error (.displacementOutOfRange l.id (Int64.ofInt address)
        (UInt8.ofNat field.width)) := by
  unfold encode
  rw [ht, MemoryOperand.close, hlabel]
  exact LabelField.fill_of_resolve hstrict htarget

/-- The sign extension of 32 bits, as addresses of long mode wrap around. -/
def IsSignExtension (address : Int) : Prop :=
  ∃ field : Int32, field.toInt ≡ address [ZMOD 2 ^ 64]

/-- These are the lowest and the highest addresses. -/
theorem isSignExtension_iff {address : Int} : IsSignExtension address ↔
    address % 2 ^ 64 < 2 ^ 31 ∨ 2 ^ 64 - 2 ^ 31 ≤ address % 2 ^ 64 := by
  unfold IsSignExtension Int.ModEq
  constructor
  · rintro ⟨field, hfield⟩
    have hlow := field.le_toInt
    have hhigh := field.toInt_lt
    omega
  · intro h
    -- the same address below zero if it is one of the highest
    have hfield : ∃ v : Int, -2 ^ 31 ≤ v ∧ v < 2 ^ 31 ∧ v % 2 ^ 64 = address % 2 ^ 64 := by
      rcases h with h | h
      · exact ⟨address % 2 ^ 64, by omega, h, Int.emod_emod_of_dvd _ (dvd_refl _)⟩
      · exact ⟨address % 2 ^ 64 - 2 ^ 64, by omega, by omega, by omega⟩
    obtain ⟨v, hlow, hhigh, hv⟩ := hfield
    refine ⟨Int32.ofInt v, ?_⟩
    rw [Int32.toInt_ofInt_of_le hlow hhigh, hv]

/-- In long mode a four-byte field for an absolute address takes signed numbers. -/
theorem fieldFits_long_iff :
    fieldFits .long64 .absolute 4 v = true ↔ -2 ^ 31 ≤ v ∧ v < 2 ^ 31 := by
  have hrange : fieldRange? .long64 .absolute 4 = some (-0x80000000, 0x7FFFFFFF) := rfl
  simp only [fieldFits, hrange, liesWithin, Bool.and_eq_true, decide_eq_true_eq]
  omega

/-- **Addresses of labels in long mode.** An instruction that exists and has an absolute operand
with a label is encoded exactly if the address is the sign extension of 32 bits and is not one of
the highest as an unsigned number, and then the field extends to it. Otherwise the address is
refused for its range. -/
theorem Instruction.encode_absolute (hmem : .memory m ∈ i.operands) (hm : m.IsAbsolute)
    (hlabel : m.label = some l) (hexists : ∃ e, i.encode .long64 ctx.relaxed = .ok e)
    (htarget : ctx.resolve l = some target) :
    let address : Int := target.toNat + m.disp.toInt
    ((∃ e, i.encode .long64 ctx.strictly = .ok e) ↔
      IsSignExtension address ∧ address < 2 ^ 64 - 2 ^ 31) ∧
    (∀ e, i.encode .long64 ctx.strictly = .ok e → ∃ f, e.fixup = some f ∧
      f.label = l ∧ f.kind = .absolute ∧ f.width = 4 ∧
      (f.read e.bytes : Int).bmod (2 ^ 32) = address) ∧
    ((¬ ∃ e, i.encode .long64 ctx.strictly = .ok e) →
      i.encode .long64 ctx.strictly =
        .error (.displacementOutOfRange l.id (Int64.ofInt address) 4)) := by
  intro address
  obtain ⟨mnemonic, operands⟩ := i
  obtain ⟨before, after, rfl⟩ := List.append_of_mem hmem
  obtain ⟨e₀, he₀⟩ := hexists
  obtain ⟨t, ht, -⟩ := encode_eq_ok he₀
  have hcheck : m.check .long64 = .ok () := check_of_mem ht hmem
  obtain ⟨lead, hlead⟩ := exists_lead ht
  have hstrict : ctx.strictly.strict = true := rfl
  have hencode := encode_close (hlead m hm hcheck) hlabel hstrict htarget
  -- the field is filled without wrapping around, so the highest addresses are out of reach
  have hfits : fieldFits .long64 .absolute 4 address = true ↔
      IsSignExtension address ∧ address < 2 ^ 64 - 2 ^ 31 := by
    have htarget_lt := target.toNat_lt
    have hdisp_le := m.disp.le_toInt
    have hdisp_lt := m.disp.toInt_lt
    rw [fieldFits_long_iff, isSignExtension_iff]
    omega
  rw [hencode, ← hfits]
  split
  · rename_i hfit
    refine ⟨⟨fun _ => hfit, fun _ => ⟨_, rfl⟩⟩, ?_, fun hno => (hno ⟨_, rfl⟩).elim⟩
    rintro e he
    obtain rfl := Except.ok.inj he
    refine ⟨_, rfl, rfl, rfl, rfl, ?_⟩
    rw [LabelField.read_fixup (length_littleEndian 4 address)]
    exact (bmod_littleEndian 4 address).trans (bmod_of_fieldFits (.inr ⟨rfl, rfl⟩) hfit)
  · rename_i hfit
    refine ⟨⟨?_, fun h => (hfit h).elim⟩, nofun, fun _ => rfl⟩
    rintro ⟨e, ⟨⟩⟩

/-- Eight bytes in front of a label that is at four, which is below zero. -/
theorem Instruction.encode_absolute_below :
    let i : Instruction :=
      ⟨.mov, [.register (.qword 0), .memory { label := some ⟨0⟩, disp := -8 }]⟩
    let ctx : Context := { address := 0x1000, resolve := fun _ => some 4 }
    let e : Encoded :=
      ⟨[0x48, 0x8B, 0x04, 0x25, 0xFC, 0xFF, 0xFF, 0xFF], some ⟨4, 4, ⟨0⟩, .absolute, 0, true⟩⟩
    i.encode .long64 ctx.strictly = .ok e ∧ IsSignExtension (-4) ∧
      ∃ f, e.fixup = some f ∧ (f.read e.bytes : Int).bmod (2 ^ 32) = -4 := by
  intro i ctx e
  have hstrict : i.encode .long64 ctx.strictly = .ok e := by decide +kernel
  have hrelaxed : i.encode .long64 ctx.relaxed = .ok e := by decide +kernel
  obtain ⟨hiff, hfield, -⟩ := encode_absolute (.tail _ (.head _)) ⟨rfl, rfl⟩ rfl ⟨e, hrelaxed⟩ rfl
  obtain ⟨f, hf, -, -, -, hread⟩ := hfield e hstrict
  exact ⟨hstrict, (hiff.mp ⟨e, hstrict⟩).1, f, hf, hread⟩

/-- A label at one of the highest addresses is refused, though the field would extend to it. -/
theorem Instruction.encode_absolute_highest :
    let i : Instruction := ⟨.mov, [.register (.qword 0), .memory (.ofLabel ⟨0⟩)]⟩
    let ctx : Context := { address := 0, resolve := fun _ => some 0xFFFFFFFF80000000 }
    i.encode .long64 ctx.relaxed = .ok ⟨[0x48, 0x8B, 0x04, 0x25, 0, 0, 0, 0x80],
        some ⟨4, 4, ⟨0⟩, .absolute, 0, true⟩⟩ ∧
      IsSignExtension 0xFFFFFFFF80000000 ∧
      i.encode .long64 ctx.strictly =
        .error (.displacementOutOfRange 0 (Int64.ofInt 0xFFFFFFFF80000000) 4) := by
  exact ⟨by decide +kernel, ⟨Int32.minValue, by decide⟩, by decide +kernel⟩

/-! ## Constants -/

/-- The bytes of an instruction in a context, if it has any. -/
def Instruction.bytes? (mode : Mode) (i : Instruction) (ctx : Context) : Option (List UInt8) :=
  (i.encode mode ctx).toOption.map Encoded.bytes

/-- The lower half of the addresses are constants as they are. -/
theorem toInt_address (hlt : target.toNat < 2 ^ 63) : target.toInt64.toInt = target.toNat := by
  rw [toInt64_eq_ofInt]
  exact Int64.toInt_ofInt_of_le (by omega) (by omega)

namespace MemoryOperand

/-- The two rules for addresses differ in the upper half of a 32-bit address space. -/
theorem dispFits_absolute_iff (mode : Mode) (hlt : target.toNat < 2 ^ 63) :
    (absolute target.toInt64).dispFits mode = true ↔
      fieldFits mode .absolute (Template.nearBytes mode) target.toNat = true ∧
        ¬ (mode.pointerBytes = 4 ∧ 2 ^ 31 ≤ target.toNat) := by
  have hdisp : (absolute target.toInt64).disp.toInt = target.toNat := toInt_address hlt
  cases mode <;>
    simp [dispFits, hdisp, fieldFits, fieldRange?, liesWithin, Template.nearBytes, Mode.isReal,
      Mode.isLong, Mode.pointerBytes] <;>
    omega

end MemoryOperand

/-- Outside long mode a label may be anywhere in a 32-bit address space. -/
theorem fieldFits_unsigned (hmode : mode.pointerBytes = 4) (hlt : target.toNat < 2 ^ 32) :
    fieldFits mode .absolute (Template.nearBytes mode) target.toNat = true := by
  have hrange : fieldRange? mode .absolute (Template.nearBytes mode) =
      some (-0x80000000, 0xFFFFFFFF) := by
    cases mode <;> first | rfl | cases hmode
  simp only [fieldFits, hrange, liesWithin, Bool.and_eq_true, decide_eq_true_eq]
  omega

namespace Instruction

/-- What has bytes has a template. -/
theorem exists_template_of_bytes? (h : i.bytes? mode ctx ≠ none) :
    ∃ t, i.template mode = .ok t := by
  cases ht : i.template mode with
  | error r =>
    unfold bytes? encode at h
    rw [ht] at h
    exact absurd rfl h
  | ok t => exact ⟨t, rfl⟩

namespace HasLead

variable {lead : List UInt8}

/-- A constant that fits its rule is written behind the lead. -/
theorem bytes?_absolute (hlead : HasLead mode mnemonic before after lead) (disp : Int64)
    (ctx : Context) :
    bytes? mode ⟨mnemonic, before ++ .memory (.absolute disp) :: after⟩ ctx =
      if (MemoryOperand.absolute disp).dispFits mode then
        some (lead ++ littleEndian (Template.nearBytes mode) disp.toInt)
      else none := by
  have hcheck := MemoryOperand.check_absolute mode disp
  split
  · rename_i hfits
    have ht := hlead _ ⟨rfl, rfl⟩ (hcheck.mpr hfits)
    unfold bytes? encode
    rw [ht]
    rfl
  · rename_i hfits
    by_contra hsome
    obtain ⟨t, ht⟩ := exists_template_of_bytes? hsome
    exact hfits (hcheck.mp (check_of_mem ht (by simp)))

/-- So is the address of a label that fits its field. -/
theorem bytes?_ofLabel (hlead : HasLead mode mnemonic before after lead)
    (hstrict : ctx.strict = true) (htarget : ctx.resolve l = some target) :
    bytes? mode ⟨mnemonic, before ++ .memory (.ofLabel l) :: after⟩ ctx =
      if fieldFits mode .absolute (Template.nearBytes mode) target.toNat then
        some (lead ++ littleEndian (Template.nearBytes mode) target.toNat)
      else none := by
  have hcheck := MemoryOperand.check_ofLabel mode l
  have hencode := encode_close (hlead _ ⟨rfl, rfl⟩ hcheck) rfl hstrict htarget
  have haddress : (target.toNat : Int) + (MemoryOperand.ofLabel l).disp.toInt = target.toNat :=
    Int.add_zero _
  unfold bytes?
  simp only [haddress] at hencode
  rw [hencode]
  split <;> rfl

end HasLead

/-- **Constants and labels.** A constant and a label at that address give the same bytes, or both
are refused, except in the upper half of a 32-bit address space. There a constant is refused, while
a label is taken as if it were at zero. -/
theorem absolute_agrees (mode : Mode) (mnemonic : Mnemonic) (before after : List Operand)
    (hstrict : ctx.strict = true) (htarget : ctx.resolve l = some target)
    (hlt : target.toNat < 2 ^ 63) (other : Context) :
    let bytesOf (m : MemoryOperand) (ctx : Context) : Option (List UInt8) :=
      bytes? mode ⟨mnemonic, before ++ .memory m :: after⟩ ctx
    (bytesOf (.absolute target.toInt64) other =
      if mode.pointerBytes = 4 ∧ 2 ^ 31 ≤ target.toNat then none else bytesOf (.ofLabel l) ctx) ∧
    (mode.pointerBytes = 4 → target.toNat < 2 ^ 32 →
      (bytesOf (.ofLabel l) ctx).isSome = (bytesOf (.absolute 0) other).isSome) := by
  intro bytesOf
  by_cases hexists : ∃ lead, HasLead mode mnemonic before after lead
  · obtain ⟨lead, hlead⟩ := hexists
    have hconstant (disp : Int64) : bytesOf (.absolute disp) other = _ :=
      hlead.bytes?_absolute disp other
    have hlabel : bytesOf (.ofLabel l) ctx = _ := hlead.bytes?_ofLabel hstrict htarget
    rw [hconstant, hconstant, hlabel]
    constructor
    · have hfits := MemoryOperand.dispFits_absolute_iff mode hlt
      rw [toInt_address hlt]
      by_cases hupper : mode.pointerBytes = 4 ∧ 2 ^ 31 ≤ target.toNat
      · rw [if_pos hupper, if_neg fun h => (hfits.mp h).2 hupper]
      · rw [if_neg hupper]
        exact if_congr (hfits.trans (and_iff_left hupper)) rfl rfl
    · intro hmode hlt
      rw [if_pos (fieldFits_unsigned hmode hlt), if_pos (by cases mode <;> rfl)]
      rfl
  · -- with no lead there is nothing to agree about
    have hnone (m : MemoryOperand) (ctx : Context) : bytesOf m ctx = none := by
      by_contra hsome
      obtain ⟨t, ht⟩ := exists_template_of_bytes? hsome
      exact hexists (exists_lead ht)
    rw [hnone, hnone, hnone]
    exact ⟨(ite_self none).symm, fun _ _ => rfl⟩

/-- A load from the last address that a constant can have in 32 bits, which is the same from a
label. -/
theorem absolute_agrees_mov :
    let ctx : Context := { address := 0, resolve := fun _ => some 0x7FFFFFFF, strict := true }
    let constant : Instruction := ⟨.mov, [.register (.dword 0), .memory (.absolute 0x7FFFFFFF)]⟩
    let labelled : Instruction := ⟨.mov, [.register (.dword 0), .memory (.ofLabel ⟨0⟩)]⟩
    let zero : Instruction := ⟨.mov, [.register (.dword 0), .memory (.absolute 0)]⟩
    constant.bytes? .legacy32 ctx = some [0x8B, 0x05, 0xFF, 0xFF, 0xFF, 0x7F] ∧
      labelled.bytes? .legacy32 ctx = some [0x8B, 0x05, 0xFF, 0xFF, 0xFF, 0x7F] ∧
      (zero.bytes? .legacy32 ctx).isSome := by
  intro ctx constant labelled zero
  have hstrict : ctx.strict = true := rfl
  have htarget : ctx.resolve ⟨0⟩ = some 0x7FFFFFFF := rfl
  obtain ⟨hconstant, hzero⟩ :=
    absolute_agrees .legacy32 .mov [.register (.dword 0)] [] hstrict htarget (by decide) ctx
  have hlabel : labelled.bytes? .legacy32 ctx = some [0x8B, 0x05, 0xFF, 0xFF, 0xFF, 0x7F] := by
    decide +kernel
  have hsome : (labelled.bytes? .legacy32 ctx).isSome = true := by
    rw [hlabel]
    rfl
  exact ⟨hconstant.trans hlabel, hlabel, (hzero rfl (by decide)).symm.trans hsome⟩

/-- At two to the 31 a constant is refused and a label is not. -/
theorem absolute_disagrees_upper :
    let ctx : Context := { address := 0, resolve := fun _ => some 0x80000000, strict := true }
    bytes? .legacy32 ⟨.mov, [.register (.dword 0), .memory (.absolute 0x80000000)]⟩ ctx = none ∧
      bytes? .legacy32 ⟨.mov, [.register (.dword 0), .memory (.ofLabel ⟨0⟩)]⟩ ctx =
        some [0x8B, 0x05, 0, 0, 0, 0x80] := by
  decide +kernel

end Instruction

end X86Asm
