import X86Asm.Interchange.Error
import X86Asm.Proofs.Encoding.Jump

/-!
# Renaming the labels of an instruction

Which labels an instruction mentions does not matter for its encoding. If they are renamed, and
looked up by their new names, the bytes are the same, and the field is that of the new label
(`Instruction.alike_encode`).
-/

namespace X86Asm

variable {mode : Mode} {σ : Label → Label} {ctx : Context} {i : Instruction} {t : Template}
  {b : Branch}

/-! ## Renaming -/

/-- The operand with its label renamed. -/
def MemoryOperand.rename (σ : Label → Label) (m : MemoryOperand) : MemoryOperand :=
  { m with label := m.label.map σ }

/-- The operand with its label renamed. -/
def Operand.rename (σ : Label → Label) : Operand → Operand
  | memory m => memory (m.rename σ)
  | label l => label (σ l)
  | o => o

/-- The instruction with its labels renamed. -/
def Instruction.rename (σ : Label → Label) (i : Instruction) : Instruction :=
  { i with operands := i.operands.map (Operand.rename σ) }

/-- The field with its label renamed. -/
def LabelField.rename (σ : Label → Label) (field : LabelField) : LabelField :=
  { field with label := σ field.label }

/-- The template with its label renamed. -/
def Template.rename (σ : Label → Label) : Template → Template
  | fixed bytes => fixed bytes
  | labelled lead field => labelled lead (field.rename σ)
  | branch b => branch { b with label := σ b.label }

/-- The encoded instruction with the label of its field renamed. -/
def Encoded.rename (σ : Label → Label) (e : Encoded) : Encoded :=
  { e with fixup := e.fixup.map fun f => { f with label := σ f.label } }

/-- The context with labels looked up by their new names. -/
def Context.comap (σ : Label → Label) (ctx : Context) : Context :=
  { ctx with resolve := fun l => ctx.resolve (σ l) }

/-- Two errors are of the same kind. -/
def Error.SameKind (e e' : Error) : Prop := e.tag = e'.tag

/-- The label of a renamed operand is the new one. -/
theorem Operand.label?_rename (o : Operand) : (o.rename σ).label? = o.label?.map σ := by
  cases o <;> rfl

/-- The first label of a renamed instruction is the new name of its first label. -/
theorem Instruction.label?_rename (i : Instruction) : (i.rename σ).label? = i.label?.map σ := by
  unfold label? rename
  induction i.operands with
  | nil => rfl
  | cons o operands ih =>
    rw [List.map_cons, List.findSome?_cons, List.findSome?_cons, Operand.label?_rename]
    cases o.label? with
    | none => exact ih
    | some l => rfl

/-! ## Templates -/

/-- Places in memory are checked whatever their labels. -/
theorem MemoryOperand.check_rename (m : MemoryOperand) :
    (m.rename σ).check mode = m.check mode := by
  have hnone : (m.rename σ).label.isNone = m.label.isNone := Option.isNone_map
  have hsome : (m.rename σ).label.isSome = m.label.isSome := Option.isSome_map
  unfold check
  rw [hnone, hsome]
  rfl

/-- Operands are checked whatever their labels. -/
theorem Operand.check_rename (o : Operand) : (o.rename σ).check mode = o.check mode := by
  cases o with
  | memory m => exact m.check_rename
  | register r => rfl
  | immediate v => rfl
  | label l => rfl

/-- The operands of an instruction are checked whatever their labels. -/
theorem Instruction.checkOperands_rename (i : Instruction) :
    (i.rename σ).checkOperands mode = i.checkOperands mode := by
  unfold checkOperands rename
  simp only [List.forM_eq_forM]
  induction i.operands with
  | nil => rfl
  | cons o operands ih => rw [List.map_cons, List.forM_cons, List.forM_cons, o.check_rename, ih]

namespace Template

/-- Renaming labels does not change what has none. -/
theorem rename_map_check {check : Except Refusal Unit} {bytes : List UInt8} :
    rename σ <$> (check >>= fun _ => pure (.fixed bytes)) =
      (check >>= fun _ => pure (.fixed bytes)) := by
  rw [map_bind]
  rfl

/-- Moving a constant mentions no label. -/
theorem rename_ofMoveImmediate (dst : Register) (v : Int64) :
    rename σ <$> ofMoveImmediate mode dst v = ofMoveImmediate mode dst v := by
  unfold ofMoveImmediate
  simp only [map_bind]
  refine congrArg _ (funext fun _ => ?_)
  split <;> try split
  all_goals rfl

/-- Arithmetic with a constant mentions no label. -/
theorem rename_ofAluImmediate (op : AluOp) (dst : Register) (v : Int64) :
    rename σ <$> ofAluImmediate mode op dst v = ofAluImmediate mode op dst v := by
  unfold ofAluImmediate
  simp only [map_bind]
  refine congrArg _ (funext fun _ => ?_)
  split <;> try split
  all_goals rfl

/-- An operation on a renamed place has the renamed template. -/
theorem ofMemory_rename (opcode : UInt8) (r : Register) (m : MemoryOperand) :
    ofMemory mode opcode r (m.rename σ) = rename σ <$> ofMemory mode opcode r m := by
  have haddressing : (m.rename σ).addressing mode r.code = m.addressing mode r.code := rfl
  unfold ofMemory
  simp only [map_bind, haddressing]
  cases hm : m.label <;> simp [MemoryOperand.rename, hm] <;> rfl

/-- Loading the address of a renamed place has the renamed template. -/
theorem rename_ofLoadAddress (dst : Register) (m : MemoryOperand) :
    ofLoadAddress mode [.register dst, .memory (m.rename σ)] =
      rename σ <$> ofLoadAddress mode [.register dst, .memory m] := by
  simp only [ofLoadAddress, ofMemory_rename, map_bind]

/-- An operation on renamed operands has the renamed template. -/
theorem ofOperands_rename (m : Mnemonic) (operands : List Operand) :
    ofOperands mode m (operands.map (Operand.rename σ)) =
      rename σ <$> ofOperands mode m operands := by
  -- the operations look at the kinds of their operands, and at no more than two
  rcases operands with _ | ⟨o, _ | ⟨o', _ | ⟨o'', rest⟩⟩⟩
  · cases m <;> rfl
  · cases m <;> cases o <;> first | rfl | exact rename_map_check.symm
  · cases m with
    | mov =>
      cases o <;> cases o' <;> first
        | rfl
        | exact ofMemory_rename ..
        | exact (rename_ofMoveImmediate ..).symm
        | exact rename_map_check.symm
    | lea => cases o <;> cases o' <;> first | rfl | exact rename_ofLoadAddress ..
    | alu op =>
      cases o <;> cases o' <;> first
        | rfl
        | exact (rename_ofAluImmediate ..).symm
        | exact rename_map_check.symm
    | _ => cases o <;> cases o' <;> rfl
  · cases m <;> cases o <;> cases o' <;> rfl

/-- A renamed template settles on the renamed field, behind the same bytes. -/
theorem settle_rename (t : Template) :
    (t.rename σ).settle ctx =
      ((t.settle (ctx.comap σ)).1, (t.settle (ctx.comap σ)).2.map (LabelField.rename σ)) := by
  cases t with
  | fixed bytes => rfl
  | labelled lead field => rfl
  | branch b =>
    have htakes : Branch.takesShort { b with label := σ b.label } ctx =
        b.takesShort (ctx.comap σ) := rfl
    simp only [rename, settle, htakes]
    cases b.short? with
    | none => rfl
    | some opcode => cases b.takesShort (ctx.comap σ) <;> rfl

end Template

/-- A renamed instruction has the renamed template. -/
theorem Instruction.template_rename (i : Instruction) :
    (i.rename σ).template mode = Template.rename σ <$> i.template mode := by
  unfold template
  rw [i.checkOperands_rename, map_bind]
  exact congrArg _ (funext fun _ => Template.ofOperands_rename ..)

/-! ## Encodings -/

/-- A renamed field is filled as the field is with the labels looked up by their new names. -/
theorem LabelField.alike_fill (field : LabelField) (lead : List UInt8) :
    Alike Error.SameKind (fun e e' => e' = e.rename σ) (field.fill mode (ctx.comap σ) lead)
      ((field.rename σ).fill mode ctx lead) := by
  have hresolve : (ctx.comap σ).resolve field.label = ctx.resolve (σ field.label) := rfl
  unfold fill
  simp only [hresolve, rename]
  cases ctx.resolve (σ field.label) with
  | none => exact .ite (fun _ => .error rfl) fun _ => .ok rfl
  | some target => exact .ite (fun _ => .error rfl) fun _ => .ok rfl

/-- A renamed template is filled as the template is with the labels looked up by their new names. -/
theorem Template.alike_fill (t : Template) :
    Alike Error.SameKind (fun e e' => e' = e.rename σ) (t.fill mode (ctx.comap σ))
      ((t.rename σ).fill mode ctx) := by
  unfold fill
  rw [t.settle_rename]
  rcases t.settle (ctx.comap σ) with ⟨lead, _ | field⟩
  · exact .ok rfl
  · exact field.alike_fill lead

/-- An instruction whose label is renamed has the same bytes if the label is looked up by its new
name. -/
theorem Instruction.alike_encode {ctx' : Context} (haddress : ctx'.address = ctx.address)
    (hstrict : ctx'.strict = ctx.strict) (hnear : ctx'.near = ctx.near)
    (hresolve : ∀ l, i.label? = some l → ctx'.resolve (σ l) = ctx.resolve l) :
    Alike Error.SameKind (fun e e' => e' = e.rename σ) (i.encode mode ctx)
      ((i.rename σ).encode mode ctx') := by
  have hcomap : i.encode mode (ctx'.comap σ) = i.encode mode ctx := by
    rw [← i.encode_congr ctx hresolve, Context.comap, haddress, hstrict, hnear]
  rw [← hcomap]
  unfold encode
  rw [i.template_rename]
  cases i.template mode with
  | error refusal => exact .error rfl
  | ok t => exact t.alike_fill

end X86Asm
