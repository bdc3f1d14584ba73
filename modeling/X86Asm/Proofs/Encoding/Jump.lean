import X86Asm.Node
import X86Asm.Proofs.Encoding.Length

/-!
# Jumps and labels

A jump to a label is the only instruction whose length depends on where it stands. Which
instructions these are, and how long their near forms are, can be told without encoding anything
(`Instruction.jumpTarget?`, `Instruction.nearLength`).

The label that an encoded instruction depends on is the one that the instruction mentions first
(`Instruction.label?_of_template`).
-/

namespace X86Asm

variable {mode : Mode} {i : Instruction} {t : Template} {b : Branch} {l : Label}

/-! ## Jumps -/

/-- The label that an instruction jumps to, with or without a condition. -/
def Instruction.jumpTarget? (i : Instruction) : Option Label :=
  match i.mnemonic, i.operands with
  | .jmp, [.label l] => some l
  | .jcc _, [.label l] => some l
  | _, _ => none

/-- The number of bytes of the near form of a jump: an opcode of one or two bytes and a wide
displacement. -/
def Instruction.nearLength (mode : Mode) (i : Instruction) : Nat :=
  (if i.mnemonic = .jmp then 1 else 2) + Template.nearBytes mode

/-- Whether the node is a jump to a label. -/
def Node.isJump : Node → Bool
  | .instruction i => i.jumpTarget?.isSome
  | _ => false

/-- A node that jumps is an instruction with a label to jump to. -/
theorem Node.isJump_eq_true {node : Node} (h : node.isJump = true) :
    ∃ i l, node = .instruction i ∧ i.jumpTarget? = some l := by
  cases node with
  | instruction i =>
    obtain ⟨l, hl⟩ := Option.isSome_iff_exists.mp h
    exact ⟨i, l, rfl, hl⟩
  | _ => cases h

/-- Near jumps are longer than short ones. -/
theorem Instruction.two_lt_nearLength (mode : Mode) (i : Instruction) : 2 < i.nearLength mode := by
  have : 2 ≤ Template.nearBytes mode := by cases mode <;> decide
  unfold nearLength
  split <;> omega

/-- A near jump takes at most six bytes. -/
theorem Instruction.nearLength_le (mode : Mode) (i : Instruction) : i.nearLength mode ≤ 6 := by
  have : Template.nearBytes mode ≤ 4 := by cases mode <;> decide
  unfold nearLength
  split <;> omega

/-- A jump to a label has a template with both forms. -/
theorem Instruction.template_of_jumpTarget (h : i.jumpTarget? = some l) (mode : Mode) :
    ∃ b, i.template mode = .ok (.branch b) ∧ b.short?.isSome ∧ b.label = l ∧
      b.near.length + b.nearWidth = i.nearLength mode := by
  obtain ⟨mnemonic, operands⟩ := i
  unfold jumpTarget? at h
  simp only at h
  split at h
  · cases h
    exact ⟨_, rfl, rfl, rfl, rfl⟩
  · cases h
    exact ⟨_, rfl, rfl, rfl, rfl⟩
  · cases h

/-- What has a template with both forms is a jump to a label. -/
theorem Instruction.jumpTarget_of_template (h : i.template mode = .ok (.branch b))
    (hshort : b.short?.isSome) : i.jumpTarget? = some b.label := by
  obtain ⟨mnemonic, operands⟩ := i
  obtain ⟨hoperands, -, -⟩ := template_eq_branch h
  simp only at hoperands
  subst hoperands
  obtain ⟨-, -, h⟩ := bind_eq_ok_iff.mp h
  cases mnemonic with
  | jmp => rfl
  | jcc c => rfl
  | call =>
    have hnone : b.short? = none :=
      congrArg Branch.short? (Template.branch.inj (Except.ok.inj h)).symm
    rw [hnone] at hshort
    cases hshort
  | _ => cases h

/-! ## Labels -/

/-- Whether an instruction is a jump or a call to a label. -/
def Instruction.isBranch (i : Instruction) : Bool :=
  match i.mnemonic, i.operands with
  | .jmp, [.label _] | .call, [.label _] | .jcc _, [.label _] => true
  | _, _ => false

/-- Whether the labels that a node refers to are the targets of branches, or enter by their
difference. -/
def Node.isRelative : Node → Bool
  | .instruction i => i.label?.isNone || i.isBranch
  | .address _ _ => false
  | _ => true

/-- The template of a branch to a label is that of a branch. -/
theorem Instruction.template_of_isBranch (h : i.isBranch = true)
    (ht : i.template mode = .ok t) : ∃ b, t = .branch b := by
  obtain ⟨mnemonic, operands⟩ := i
  unfold isBranch at h
  simp only at h
  split at h
  all_goals
    cases h
    try exact ⟨_, (Except.ok.inj ht).symm⟩

/-- The label that the bytes depend on. -/
def Template.label? : Template → Option Label
  | .fixed _ => none
  | .labelled _ field => some field.label
  | .branch b => some b.label

/-- An instruction depends on the label that it mentions first. -/
theorem Instruction.label?_of_template (h : i.template mode = .ok t) : i.label? = t.label? := by
  cases i.shape_template h with
  | fixed bytes hlabel => exact hlabel
  | labelled lead _ hoperands hlabel => exact hoperands.firstLabel?.trans hlabel
  | branch hoperands =>
    unfold label?
    rw [hoperands]
    rfl

/-- The field that a template settles on is for the label of the template. -/
theorem Template.label?_of_settle {ctx : Context} {lead : List UInt8} {field : LabelField}
    (h : t.settle ctx = (lead, some field)) : t.label? = some field.label := by
  cases t with
  | fixed bytes => cases h
  | labelled lead field =>
    cases h
    rfl
  | branch b =>
    by_cases hshort : b.takesShort ctx
    · obtain ⟨opcode, hsettle⟩ := Branch.settle_of_short hshort
      cases hsettle.symm.trans h
      rfl
    · cases (Branch.settle_of_near hshort).symm.trans h
      rfl

/-- A template that settles on no field has no label. -/
theorem Template.label?_of_settle_none {ctx : Context} {lead : List UInt8}
    (h : t.settle ctx = (lead, none)) : t.label? = none := by
  cases t with
  | fixed bytes => rfl
  | labelled lead field => cases h
  | branch b =>
    by_cases hshort : b.takesShort ctx
    · obtain ⟨opcode, hsettle⟩ := Branch.settle_of_short hshort
      cases hsettle.symm.trans h
    · cases (Branch.settle_of_near hshort).symm.trans h

/-- A strict context refuses a label without an address. -/
theorem LabelField.fill_of_unresolved {ctx : Context} {lead : List UInt8} {field : LabelField}
    (hstrict : ctx.strict = true) (hnone : ctx.resolve field.label = none) :
    field.fill mode ctx lead = .error (.unresolvedLabel field.label.id none) := by
  unfold fill
  simp only [hnone, hstrict]
  rfl

/-- A strict context has no encoding for an instruction whose label it does not know. -/
theorem Instruction.encode_of_unresolved {ctx : Context} (ht : i.template mode = .ok t)
    (hl : i.label? = some l) (hstrict : ctx.strict = true) (hnone : ctx.resolve l = none) :
    i.encode mode ctx = .error (.unresolvedLabel l.id none) := by
  rw [label?_of_template ht] at hl
  unfold encode
  rw [ht]
  show t.fill mode ctx = _
  rcases hs : t.settle ctx with ⟨lead, _ | field⟩
  · cases (Template.label?_of_settle_none hs).symm.trans hl
  · obtain rfl : field.label = l := Option.some.inj ((Template.label?_of_settle hs).symm.trans hl)
    rw [Template.fill_of_settle hs]
    exact LabelField.fill_of_unresolved hstrict hnone

/-- Of the addresses of labels only that of its own label matters. -/
theorem Template.fill_congr (ctx : Context) {resolve : Label → Option UInt64}
    (h : ∀ l, t.label? = some l → resolve l = ctx.resolve l) :
    t.fill mode { ctx with resolve } = t.fill mode ctx := by
  -- the address enters the choice of the form, and then the value of the field
  have hsettle : t.settle { ctx with resolve } = t.settle ctx := by
    cases t with
    | fixed bytes => rfl
    | labelled lead field => rfl
    | branch b =>
      have htakes : b.takesShort { ctx with resolve } = b.takesShort ctx := by
        unfold Branch.takesShort
        simp only [h b.label rfl]
      unfold settle
      simp only [htakes]
  unfold fill
  rw [hsettle]
  rcases hs : t.settle ctx with ⟨lead, _ | field⟩
  · rfl
  · have hlabel := h field.label (label?_of_settle hs)
    show field.fill mode { ctx with resolve } lead = field.fill mode ctx lead
    unfold LabelField.fill
    simp only [hlabel]
    rfl

/-- Of all addresses only that of the first label matters to an instruction. -/
theorem Instruction.encode_congr (ctx : Context) {resolve : Label → Option UInt64}
    (h : ∀ l, i.label? = some l → resolve l = ctx.resolve l) :
    i.encode mode { ctx with resolve } = i.encode mode ctx := by
  unfold encode
  cases ht : i.template mode with
  | error refusal => rfl
  | ok t => exact Template.fill_congr ctx fun l hl => h l ((label?_of_template ht).trans hl)

end X86Asm
