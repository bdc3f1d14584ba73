import X86Asm.Encoding.Encoded
import X86Asm.Proofs.Outcome

/-!
# The length of an instruction

The length of an encoded instruction follows from its template, except that a branch with a short
form has two bytes if the context lets it take that form. The short form is the shorter one
(`two_lt_near`), and it is taken exactly if the target is known and within reach
(`Branch.takesShort_iff`).
-/

namespace X86Asm

variable {mode : Mode} {i : Instruction} {t : Template} {b : Branch} {ctx : Context} {e : Encoded}

/-- The number of bytes of what the template becomes in a context. -/
def Template.length (ctx : Context) : Template → Nat
  | .fixed bytes => bytes.length
  | .labelled lead field => lead.length + field.width
  | .branch b => if b.takesShort ctx then 2 else b.near.length + b.nearWidth

/-- What an instruction that ends in the field becomes: the field holds its value, which a strict
context finds to fit, or it is zero because a relaxed context does not know the label. -/
inductive LabelField.Filled (mode : Mode) (ctx : Context) (lead : List UInt8)
    (field : LabelField) : Encoded → Prop
  | value {target : UInt64} : ctx.resolve field.label = some target →
      (ctx.strict = true → fieldFits mode field.kind field.width
        (field.value ctx (lead.length + field.width) target) = true) →
      Filled mode ctx lead field
        ⟨lead ++ littleEndian field.width (field.value ctx (lead.length + field.width) target),
          some ⟨lead.length, field.width, field.label, field.kind, 0, true⟩⟩
  | zero : ctx.resolve field.label = none → ctx.strict = false →
      Filled mode ctx lead field ⟨lead ++ List.replicate field.width 0,
        some ⟨lead.length, field.width, field.label, field.kind, 0, false⟩⟩

/-- What a label field is filled with, case by case. -/
theorem LabelField.fill_eq_ok_iff {lead : List UInt8} {field : LabelField} :
    field.fill mode ctx lead = .ok e ↔ field.Filled mode ctx lead e := by
  unfold fill
  constructor
  · intro h
    simp only at h
    split at h
    · rename_i hnone
      split at h
      · cases h
      · rename_i hstrict
        cases h
        exact .zero hnone (Bool.eq_false_iff.mpr hstrict)
    · rename_i target htarget
      split at h
      · cases h
      · rename_i hfits
        cases h
        refine .value htarget fun hstrict => ?_
        simpa [hstrict] using hfits
  · intro h
    cases h with
    | value htarget hfits =>
      simp only [htarget]
      refine if_neg fun hrefused => ?_
      obtain ⟨hstrict, hout⟩ := Bool.and_eq_true_iff.mp hrefused
      rw [hfits hstrict] at hout
      cases hout
    | zero hnone hstrict =>
      simp only [hnone, hstrict]
      rfl

/-- The description of a field at the end of an instruction. -/
def LabelField.fixup (field : LabelField) (ctx : Context) (lead : List UInt8) : Fixup where
  offset := lead.length
  width := field.width
  label := field.label
  kind := field.kind
  trailing := 0
  resolved := (ctx.resolve field.label).isSome

/-- A field that is filled is reported, whatever it is filled with. -/
theorem LabelField.Filled.fixup_eq {lead : List UInt8} {field : LabelField}
    (h : field.Filled mode ctx lead e) : e.fixup = some (field.fixup ctx lead) := by
  cases h with
  | value htarget =>
    rw [LabelField.fixup, htarget]
    rfl
  | zero hnone =>
    rw [LabelField.fixup, hnone]
    rfl

/-- A field that is filled has its width, whatever it is filled with. -/
theorem LabelField.Filled.exists_bytes {lead : List UInt8} {field : LabelField}
    (h : field.Filled mode ctx lead e) :
    ∃ bytes, bytes.length = field.width ∧ e.bytes = lead ++ bytes := by
  cases h with
  | value => exact ⟨_, length_littleEndian _ _, rfl⟩
  | zero => exact ⟨_, List.length_replicate, rfl⟩

/-- Filling a field adds its width to the bytes in front of it. -/
theorem LabelField.length_of_fill {lead : List UInt8} {field : LabelField}
    (h : field.fill mode ctx lead = .ok e) : e.bytes.length = lead.length + field.width := by
  obtain ⟨bytes, hbytes, he⟩ := (fill_eq_ok_iff.mp h).exists_bytes
  rw [he, List.length_append, hbytes]

/-- In a strict context the label of a field is known, and the field may hold its value. -/
theorem LabelField.fill_eq_ok {lead : List UInt8} {field : LabelField} (hctx : ctx.strict)
    (h : field.fill mode ctx lead = .ok e) :
    ∃ target, ctx.resolve field.label = some target ∧
      fieldFits mode field.kind field.width (field.value ctx e.bytes.length target) ∧
      e.bytes = lead ++ littleEndian field.width (field.value ctx e.bytes.length target) ∧
      e.fixup = some ⟨lead.length, field.width, field.label, field.kind, 0, true⟩ := by
  rw [length_of_fill h]
  rw [fill_eq_ok_iff] at h
  cases h with
  | value htarget hfits => exact ⟨_, htarget, hfits hctx, rfl, rfl⟩
  | zero _ hrelaxed => cases hctx.symm.trans hrelaxed

/-- What fails in a strict context is that the label is not known, or that its value is not one
that the field may hold. -/
theorem LabelField.fill_eq_error {lead : List UInt8} {field : LabelField} {err : Error}
    (h : field.fill mode ctx lead = .error err) :
    ctx.resolve field.label = none ∨
      ∃ target lo hi, ctx.resolve field.label = some target ∧
        fieldRange? mode field.kind field.width = some (lo, hi) ∧
        ¬ (lo ≤ field.value ctx (lead.length + field.width) target ∧
          field.value ctx (lead.length + field.width) target ≤ hi) ∧
        err = .displacementOutOfRange field.label.id
          (Int64.ofInt (field.value ctx (lead.length + field.width) target))
          (UInt8.ofNat field.width) := by
  unfold LabelField.fill at h
  simp only at h
  split at h
  · rename_i hnone
    exact .inl hnone
  · rename_i target htarget
    split at h
    · rename_i hfits
      cases h
      rw [Bool.and_eq_true, Bool.not_eq_true', fieldFits] at hfits
      obtain ⟨-, hfits⟩ := hfits
      split at hfits
      · cases hfits
      · rename_i lo hi hrange
        refine .inr ⟨target, lo, hi, htarget, hrange, ?_, rfl⟩
        simpa [liesWithin] using hfits
    · cases h

/-- A branch that takes its short form settles on one byte of distance. -/
theorem Branch.settle_of_short (h : b.takesShort ctx = true) :
    ∃ opcode, (Template.branch b).settle ctx =
      ([opcode], some ⟨1, b.label, .relative, 0⟩) := by
  obtain ⟨opcode, hs⟩ : ∃ opcode, b.short? = some opcode := by
    unfold takesShort at h
    cases hs : b.short? <;> simp [hs] at h ⊢
  exact ⟨opcode, by simp only [Template.settle, hs, if_pos h]⟩

/-- A branch that does not settles on its near form. -/
theorem Branch.settle_of_near (h : ¬ b.takesShort ctx = true) :
    (Template.branch b).settle ctx = (b.near, some ⟨b.nearWidth, b.label, .relative, 0⟩) := by
  cases hs : b.short? <;> simp only [Template.settle, hs, if_neg h]

/-- The bytes and the field that a template settles for make up its length. -/
theorem Template.length_settle (ctx : Context) (t : Template) :
    t.length ctx = (t.settle ctx).1.length + (t.settle ctx).2.elim 0 LabelField.width := by
  cases t with
  | fixed bytes => rfl
  | labelled lead field => rfl
  | branch b =>
    rw [length]
    by_cases hshort : b.takesShort ctx
    · obtain ⟨opcode, hs⟩ := Branch.settle_of_short hshort
      rw [if_pos hshort, hs]
      rfl
    · rw [if_neg hshort, Branch.settle_of_near hshort]
      rfl

/-- A template with a label is filled by filling the field that it settles on. -/
theorem Template.fill_of_settle {lead : List UInt8} {field : LabelField}
    (hs : t.settle ctx = (lead, some field)) : t.fill mode ctx = field.fill mode ctx lead := by
  unfold fill
  rw [hs]

/-- A template becomes its bytes, or it ends in a field. -/
theorem Template.fill_eq_ok (h : t.fill mode ctx = .ok e) :
    (∃ bytes, t.settle ctx = (bytes, none) ∧ e = ⟨bytes, none⟩) ∨
      ∃ lead field, t.settle ctx = (lead, some field) ∧ field.fill mode ctx lead = .ok e := by
  rcases hs : t.settle ctx with ⟨lead, _ | field⟩
  · unfold fill at h
    rw [hs] at h
    cases h
    exact .inl ⟨lead, rfl, rfl⟩
  · rw [fill_of_settle hs] at h
    exact .inr ⟨lead, field, rfl, h⟩

/-- A template is refused only for its label field. -/
theorem Template.fill_eq_error {err : Error} (h : t.fill mode ctx = .error err) :
    ∃ lead field, t.settle ctx = (lead, some field) ∧ field.fill mode ctx lead = .error err := by
  unfold fill at h
  split at h
  · cases h
  · rename_i lead field hsettle
    exact ⟨lead, field, hsettle, h⟩

/-- The length of a template that is filled can be told before. -/
theorem Template.length_of_fill (h : t.fill mode ctx = .ok e) : e.bytes.length = t.length ctx := by
  rw [length_settle]
  rcases fill_eq_ok h with ⟨bytes, hs, rfl⟩ | ⟨lead, field, hs, hfield⟩
  · rw [hs]
    rfl
  · rw [hs]
    exact LabelField.length_of_fill hfield

/-- Outside a strict context nothing is out of range. -/
theorem LabelField.exists_fill (hctx : ctx.strict = false) (lead : List UInt8)
    (field : LabelField) : ∃ e, field.fill mode ctx lead = .ok e := by
  unfold LabelField.fill
  cases ctx.resolve field.label <;> simp [hctx]

/-- A relaxed context refuses no template. -/
theorem Template.exists_fill (hctx : ctx.strict = false) (t : Template) :
    ∃ e, t.fill mode ctx = .ok e := by
  unfold fill
  rcases t.settle ctx with ⟨lead, field⟩
  cases field with
  | none => exact ⟨_, rfl⟩
  | some field => exact LabelField.exists_fill hctx lead field

/-- An instruction is encoded by filling its template. -/
theorem Instruction.encode_eq_ok (h : i.encode mode ctx = .ok e) :
    ∃ t, i.template mode = .ok t ∧ t.fill mode ctx = .ok e := by
  unfold encode at h
  split at h
  · cases h
  · rename_i t ht
    exact ⟨t, ht, h⟩

/-- The length of an encoded instruction is that of its template. -/
theorem Instruction.length_of_encode (ht : i.template mode = .ok t)
    (h : i.encode mode ctx = .ok e) : e.bytes.length = t.length ctx := by
  obtain ⟨t', ht', hfill⟩ := encode_eq_ok h
  obtain rfl := Except.ok.inj (ht.symm.trans ht')
  exact Template.length_of_fill hfill

/-! ## Kinds of templates -/

/-- A displacement takes at most four bytes. -/
theorem MemoryOperand.width_addressing_le (m : MemoryOperand) (mode : Mode) (reg : Nat) :
    (m.addressing mode reg).width ≤ 4 := by
  unfold addressing Addressing.ofBase
  grind

/-- The first label that operands mention. -/
def Operand.firstLabel? (operands : List Operand) : Option Label :=
  operands.findSome? Operand.label?

/-- The operands are a register and a place in memory, in one order or the other. -/
def Operand.AreMemory (operands : List Operand) (m : MemoryOperand) : Prop :=
  ∃ r, operands = [.register r, .memory m] ∨ operands = [.memory m, .register r]

/-- A register does not hide the label of a memory operand beside it. -/
theorem Operand.AreMemory.firstLabel? {operands : List Operand} {m : MemoryOperand}
    (h : AreMemory operands m) : firstLabel? operands = m.label := by
  obtain ⟨r, rfl | rfl⟩ := h <;>
    cases hm : m.label <;> simp [Operand.firstLabel?, List.findSome?_cons, label?, hm]

/-- What a template of some operands can be. -/
inductive Template.Shape (mode : Mode) (operands : List Operand) : Template → Prop
  | fixed (bytes : List UInt8) : Operand.firstLabel? operands = none →
      Shape mode operands (.fixed bytes)
  | labelled (lead : List UInt8) {m : MemoryOperand} {l : Label} (reg : Nat) :
      Operand.AreMemory operands m → m.label = some l →
      Shape mode operands (.labelled lead
        ⟨(m.addressing mode reg).width, l, (m.addressing mode reg).kind, m.disp⟩)
  | branch {b : Branch} : operands = [.label b.label] → b.nearWidth = nearBytes mode →
      0 < b.near.length → Shape mode operands (.branch b)

/-- A template of fixed bytes behind a check is for operands without a label. -/
theorem Template.shape_of_check {operands : List Operand} {check : Except Refusal Unit}
    {bytes : List UInt8} (hlabel : Operand.firstLabel? operands = none)
    (h : (check >>= fun _ => pure (.fixed bytes)) = .ok t) : t.Shape mode operands := by
  obtain ⟨-, h⟩ := check_bind_eq_ok_iff.mp h
  cases h
  exact .fixed _ hlabel

/-- The template of an operation on memory has the label of the place, if it has one. -/
theorem Template.shape_ofMemory {opcode : UInt8} {r : Register} {m : MemoryOperand}
    {operands : List Operand} (hoperands : Operand.AreMemory operands m)
    (h : ofMemory mode opcode r m = .ok t) : t.Shape mode operands := by
  obtain ⟨-, h⟩ := check_bind_eq_ok_iff.mp h
  split at h
  · rename_i hm
    cases h
    exact .fixed _ (hoperands.firstLabel?.trans hm)
  · rename_i hm
    cases h
    exact .labelled _ _ hoperands hm

/-- The template of arithmetic with a constant has no label. -/
theorem Template.shape_ofAluImmediate {op : AluOp} {dst : Register} {v : Int64}
    {operands : List Operand} (hlabel : Operand.firstLabel? operands = none)
    (h : ofAluImmediate mode op dst v = .ok t) : t.Shape mode operands := by
  obtain ⟨-, h⟩ := check_bind_eq_ok_iff.mp h
  by_cases hbyte : dst.bits = 8
  · rw [if_pos hbyte] at h
    cases h
    exact .fixed _ hlabel
  · rw [if_neg hbyte] at h
    by_cases hshort : liesWithin (-128) 127 (v.toInt.bmod (Nat.pow 2 dst.bits))
    · rw [if_pos hshort] at h
      cases h
      exact .fixed _ hlabel
    · rw [if_neg hshort] at h
      cases h
      exact .fixed _ hlabel

/-- A template has no label, or one in a memory operand, or it is a branch to it. -/
theorem Template.shape_ofOperands {m : Mnemonic} {operands : List Operand}
    (h : ofOperands mode m operands = .ok t) : t.Shape mode operands := by
  cases m with
  | jmp =>
    simp only [ofOperands, ofJump] at h
    split at h
    · cases h
      exact .branch rfl rfl (by simp)
    · exact shape_of_check rfl h
    · cases h
  | call =>
    simp only [ofOperands, ofCall] at h
    split at h
    · cases h
      exact .branch rfl rfl (by simp)
    · exact shape_of_check rfl h
    · cases h
  | jcc c =>
    simp only [ofOperands, ofConditionalJump] at h
    split at h
    · cases h
      exact .branch rfl rfl (by simp)
    · cases h
  | nop | int3 | hlt =>
    simp only [ofOperands, ofOpcode] at h
    split at h
    · cases h
      exact .fixed _ rfl
    · cases h
  | ret =>
    simp only [ofOperands, ofReturn] at h
    split at h
    · cases h
      exact .fixed _ rfl
    · exact shape_of_check rfl h
    · cases h
  | push | pop =>
    simp only [ofOperands, ofStackOp] at h
    split at h
    · exact shape_of_check rfl h
    · cases h
  | mov =>
    simp only [ofOperands, ofMove] at h
    split at h
    · exact shape_of_check rfl h
    · obtain ⟨-, h⟩ := check_bind_eq_ok_iff.mp h
      -- every form of a move of a constant has its bytes at once
      split at h <;> try split at h
      all_goals
        cases h
        exact .fixed _ rfl
    · exact shape_ofMemory ⟨_, .inl rfl⟩ h
    · exact shape_ofMemory ⟨_, .inr rfl⟩ h
    · cases h
  | lea =>
    simp only [ofOperands, ofLoadAddress] at h
    split at h
    · obtain ⟨-, h⟩ := check_bind_eq_ok_iff.mp h
      exact shape_ofMemory ⟨_, .inl rfl⟩ h
    · cases h
  | alu op =>
    simp only [ofOperands, ofAlu] at h
    split at h
    · exact shape_of_check rfl h
    · exact shape_ofAluImmediate rfl h
    · cases h

/-- The template of an instruction has the shape that its operands ask for. -/
theorem Instruction.shape_template (h : i.template mode = .ok t) : t.Shape mode i.operands := by
  obtain ⟨-, -, h⟩ := bind_eq_ok_iff.mp h
  exact Template.shape_ofOperands h

/-! ## Branches -/

/-- What has the template of a branch is a jump or a call to a label. -/
theorem Instruction.template_eq_branch (h : i.template mode = .ok (.branch b)) :
    i.operands = [.label b.label] ∧ b.nearWidth = Template.nearBytes mode ∧
      0 < b.near.length := by
  cases i.shape_template h with
  | branch hoperands hwidth hnear => exact ⟨hoperands, hwidth, hnear⟩

/-- The near form is longer than the short one. -/
theorem two_lt_near (h : i.template mode = .ok (.branch b)) :
    2 < b.near.length + b.nearWidth := by
  obtain ⟨-, hwidth, hnear⟩ := i.template_eq_branch h
  have : 2 ≤ Template.nearBytes mode := by cases mode <;> decide
  omega

/-- Whether the short form of a branch at an address reaches a target. -/
def InReach (address target : Nat) : Prop := target ≤ address + 129 ∧ address ≤ target + 125

/-- A branch that may be short is so exactly if its target is known and in reach. -/
theorem Branch.takesShort_iff (hnear : ctx.near = false) (hshort : b.short?.isSome) :
    b.takesShort ctx = true ↔
      ∃ target, ctx.resolve b.label = some target ∧ InReach ctx.address.toNat target.toNat := by
  unfold takesShort
  simp only [hnear, hshort, Bool.not_false, Bool.true_and, Option.any_eq_true]
  refine exists_congr fun target => and_congr_right fun _ => ?_
  simp only [liesWithin, Bool.and_eq_true, decide_eq_true_eq, InReach]
  omega

/-- A branch takes its short form only if that holds the distance. -/
theorem Branch.value_of_takesShort (h : b.takesShort ctx = true)
    {target : UInt64} (htarget : ctx.resolve b.label = some target) :
    -0x80 ≤ LabelField.value ⟨1, b.label, .relative, 0⟩ ctx 2 target ∧
      LabelField.value ⟨1, b.label, .relative, 0⟩ ctx 2 target ≤ 0x7F := by
  unfold takesShort at h
  rw [Bool.and_eq_true, htarget, Option.any_some] at h
  simp only [liesWithin, Bool.and_eq_true, decide_eq_true_eq] at h
  simp only [LabelField.value, show (0 : Int64).toInt = 0 from rfl]
  omega

/-- What takes its short form has an encoding, whatever the context refuses. -/
theorem Instruction.exists_encode_of_takesShort (ht : i.template mode = .ok (.branch b))
    (h : b.takesShort ctx = true) : ∃ e, i.encode mode ctx = .ok e ∧ e.bytes.length = 2 := by
  cases hencode : i.encode mode ctx with
  | ok e => exact ⟨e, rfl, (length_of_encode ht hencode).trans (if_pos h)⟩
  | error err =>
    exfalso
    unfold encode at hencode
    rw [ht] at hencode
    obtain ⟨opcode, hs⟩ := Branch.settle_of_short h
    obtain ⟨lead, field, hsettle, hfield⟩ := Template.fill_eq_error hencode
    cases hs.symm.trans hsettle
    rcases LabelField.fill_eq_error hfield with hnone | ⟨target, lo, hi, htarget, hrange, hout, -⟩
    · unfold Branch.takesShort at h
      rw [hnone] at h
      simp at h
    · cases hrange
      exact hout (Branch.value_of_takesShort h htarget)

/-- Only a branch that has a short form has a length that depends on the context. -/
theorem Template.length_congr (h : ¬ ∃ b, t = .branch b ∧ b.short?.isSome) (ctx ctx' : Context) :
    t.length ctx = t.length ctx' := by
  cases t with
  | fixed bytes => rfl
  | labelled lead field => rfl
  | branch b =>
    have hnone : b.short?.isSome = false := Bool.eq_false_iff.mpr fun hs => h ⟨b, rfl, hs⟩
    simp [length, Branch.takesShort, hnone]

/-- What is pinned to the near form has its length. -/
theorem Template.length_branch_near (hctx : ctx.near = true) :
    Template.length ctx (.branch b) = b.near.length + b.nearWidth := by
  rw [length, if_neg]
  simp [Branch.takesShort, hctx]

/-- At the same length an instruction takes the same form. -/
theorem Template.settle_congr {ctx' : Context} (ht : i.template mode = .ok t)
    (hlength : t.length ctx = t.length ctx') : t.settle ctx = t.settle ctx' := by
  cases t with
  | fixed bytes => rfl
  | labelled lead field => rfl
  | branch b =>
    have hnear := two_lt_near ht
    have htakes : b.takesShort ctx = b.takesShort ctx' := by
      unfold length at hlength
      cases hs : b.takesShort ctx <;> cases hs' : b.takesShort ctx' <;>
        simp [hs, hs'] at hlength <;> first | rfl | omega
    unfold settle
    simp only [htakes]

/-- What does not take the short form is what the near form is. -/
theorem Branch.fill_near (h : ¬ b.takesShort ctx = true) :
    (Template.branch b).fill mode { ctx with near := true } =
      (Template.branch b).fill mode ctx := by
  have hnear : ¬ b.takesShort { ctx with near := true } = true := by simp [takesShort]
  unfold Template.fill
  rw [settle_of_near h, settle_of_near hnear]
  rfl

end X86Asm
