import X86Asm.Proofs.Encoding.Bounds
import X86Asm.Proofs.Encoding.Context
import X86Asm.Proofs.Encoding.Reference
import X86Asm.Proofs.LittleEndian

/-!
# The label field of an encoded instruction

An encoded instruction comes with a description of its label field, by which the field can be found
again and written anew. The description can be relied upon in every context (`Fixup.Describes`,
`Instruction.encode_describes`): the field lies where it is said to, it holds the address that the
operand asks for, or zero if the label is not known, and it is all that another context changes as
long as the length is the same.
-/

namespace X86Asm

variable {mode : Mode} {i : Instruction} {t : Template} {ctx ctx' : Context} {e e' : Encoded}
  {f : Fixup} {lead bytes : List UInt8} {field : LabelField}

/-! ## What is to be shown -/

namespace Fixup

/-- What the field holds, read as a number. -/
def read (f : Fixup) (bytes : List UInt8) : Nat :=
  ofLittleEndian ((bytes.drop f.offset).take f.width)

/-- What the field should hold to lead to an address from an instruction of `length` bytes. -/
def wanted (f : Fixup) (ctx : Context) (length : Nat) (address : Int) : Int :=
  match f.kind with
  | .absolute => address
  | .relative => address - (ctx.address.toNat + length)

/-- The field leads to an address: it holds what it should, cut off to its width, and in a strict
context nothing is cut off where the processor extends the field by its sign. -/
structure LeadsTo (f : Fixup) (mode : Mode) (ctx : Context) (e : Encoded) (address : Int) :
    Prop where
  read_eq : (f.read e.bytes : Int) = f.wanted ctx e.bytes.length address % 256 ^ f.width
  signed_eq : ctx.strict = true → f.width = 1 ∨ f.width = 4 ∧ mode.isLong →
    (f.read e.bytes : Int).bmod (256 ^ f.width) = f.wanted ctx e.bytes.length address

/-- The field is as the description of it says. -/
structure Describes (f : Fixup) (mode : Mode) (i : Instruction) (ctx : Context) (e : Encoded) :
    Prop where
  /-- The field lies within the bytes, and those behind it are counted. -/
  within : f.offset + f.width + f.trailing = e.bytes.length
  /-- It holds a value if the label is known. -/
  resolved_eq : f.resolved = (ctx.resolve f.label).isSome
  /-- Then it leads to where the operand says, a constant beyond the label. -/
  known : ∀ target, ctx.resolve f.label = some target →
    ∃ addend, i.reference? = some ⟨f.label, f.kind, addend⟩ ∧
      f.LeadsTo mode ctx e (target.toNat + addend.toInt)
  /-- A label may be unknown in a relaxed context, which leaves the field zero and takes the near
  form of a branch. -/
  unknown : ctx.resolve f.label = none → ctx.strict = false ∧ f.read e.bytes = 0 ∧
    (i.isBranch = true → f.width = Template.nearBytes mode ∧
      i.encode mode { ctx with near := true } = .ok e)
  /-- Another context of the same length changes nothing outside the field. -/
  outside : ∀ ctx' e', i.encode mode ctx' = .ok e' → e'.bytes.length = e.bytes.length →
    (∃ resolved, e'.fixup = some { f with resolved }) ∧
      ∀ k, k < f.offset ∨ f.offset + f.width ≤ k → e'.bytes[k]? = e.bytes[k]?

end Fixup

/-! ## Fields at the end -/

/-- What stands behind the other bytes is what is read in the label field. -/
theorem LabelField.read_fixup (hbytes : bytes.length = field.width) :
    (field.fixup ctx lead).read (lead ++ bytes) = ofLittleEndian bytes := by
  unfold Fixup.read fixup
  simp [← hbytes]

/-- The value of a field is what the description asks for. -/
theorem LabelField.value_eq_wanted (field : LabelField) (ctx : Context) (lead : List UInt8)
    (length : Nat) (target : UInt64) :
    field.value ctx length target =
      (field.fixup ctx lead).wanted ctx length (target.toNat + field.addend.toInt) := by
  unfold value Fixup.wanted fixup
  cases field.kind <;> rfl

/-- A field whose label is known leads to it. -/
theorem LabelField.Filled.leadsTo (h : field.Filled mode ctx lead e) {target : UInt64}
    (htarget : ctx.resolve field.label = some target) :
    (field.fixup ctx lead).LeadsTo mode ctx e (target.toNat + field.addend.toInt) := by
  cases h with
  | @value target' htarget' hfits =>
    obtain rfl := Option.some.inj (htarget.symm.trans htarget')
    have hlength : (lead ++ littleEndian field.width
        (field.value ctx (lead.length + field.width) target)).length =
          lead.length + field.width := by
      rw [List.length_append, length_littleEndian]
    refine ⟨?_, fun hstrict hsigned => ?_⟩
    · rw [LabelField.read_fixup (length_littleEndian _ _), hlength, ← field.value_eq_wanted]
      exact ofLittleEndian_littleEndian _ _
    · rw [LabelField.read_fixup (length_littleEndian _ _), hlength, ← field.value_eq_wanted]
      exact (bmod_littleEndian _ _).trans (bmod_of_fieldFits hsigned (hfits hstrict))
  | zero hnone => cases hnone.symm.trans htarget

/-- A field whose label is not known is zero. -/
theorem LabelField.Filled.read_eq_zero (h : field.Filled mode ctx lead e)
    (hnone : ctx.resolve field.label = none) :
    ctx.strict = false ∧ (field.fixup ctx lead).read e.bytes = 0 := by
  cases h with
  | value htarget => cases hnone.symm.trans htarget
  | zero _ hstrict =>
    refine ⟨hstrict, ?_⟩
    rw [LabelField.read_fixup List.length_replicate, ofLittleEndian_replicate_zero]

/-! ## Instructions -/

/-- A branch takes its near form if it is not known where to. -/
theorem Template.near_of_unknown {b : Branch} (hb : (branch b).fill mode ctx = .ok e)
    (hs : (branch b).settle ctx = (lead, some field)) (hnone : ctx.resolve field.label = none) :
    field.width = b.nearWidth ∧ (branch b).fill mode { ctx with near := true } = .ok e := by
  have hlabel : b.label = field.label := Option.some.inj (label?_of_settle hs)
  have hnear : ¬ b.takesShort ctx = true := by
    unfold Branch.takesShort
    rw [hlabel, hnone]
    simp
  cases (Branch.settle_of_near hnear).symm.trans hs
  exact ⟨rfl, (Branch.fill_near hnear).trans hb⟩

/-- **The label field.** The description that comes with an encoded instruction can be relied upon:
where its field lies, what it holds, and that contexts of the same length differ in nothing else. -/
theorem Instruction.encode_describes (h : i.encode mode ctx = .ok e) (hf : e.fixup = some f) :
    f.Describes mode i ctx e := by
  obtain ⟨t, ht, hfill⟩ := encode_eq_ok h
  obtain ⟨bytes, -, rfl⟩ | ⟨lead, field, hs, hfield⟩ := Template.fill_eq_ok hfill
  · cases hf
  have hfilled := LabelField.fill_eq_ok_iff.mp hfield
  obtain rfl : field.fixup ctx lead = f := Option.some.inj (hfilled.fixup_eq.symm.trans hf)
  refine ⟨field_within h hf, rfl, fun target htarget => ?_, fun hnone => ?_,
    fun ctx' e' h' hlength => ?_⟩
  · exact ⟨field.addend, (reference?_of_settle ht hs).1, hfilled.leadsTo htarget⟩
  · obtain ⟨hstrict, hzero⟩ := hfilled.read_eq_zero hnone
    refine ⟨hstrict, hzero, fun hbranch => ?_⟩
    obtain ⟨b, rfl⟩ := template_of_isBranch hbranch ht
    obtain ⟨hnear, hpinned⟩ := Template.near_of_unknown hfill hs hnone
    refine ⟨hnear.trans (template_eq_branch ht).2.1, ?_⟩
    unfold encode
    rw [ht]
    exact hpinned
  · -- at the same length the form is the same, and so are the bytes in front of the field
    rw [length_of_encode ht h, length_of_encode ht h'] at hlength
    obtain ⟨t', ht', hfill'⟩ := encode_eq_ok h'
    obtain rfl := Except.ok.inj (ht.symm.trans ht')
    rw [Template.fill_of_settle ((Template.settle_congr ht hlength).trans hs)] at hfill'
    have hfilled' := LabelField.fill_eq_ok_iff.mp hfill'
    obtain ⟨bytes, hbytes, he⟩ := hfilled.exists_bytes
    obtain ⟨bytes', hbytes', he'⟩ := hfilled'.exists_bytes
    refine ⟨⟨_, hfilled'.fixup_eq⟩, fun k hk => ?_⟩
    rw [he, he']
    rcases hk with hk | hk
    · rw [List.getElem?_append_left hk, List.getElem?_append_left hk]
    · have hend : lead.length + field.width ≤ k := hk
      rw [List.getElem?_eq_none (by rw [List.length_append]; omega),
        List.getElem?_eq_none (by rw [List.length_append]; omega)]

/-- An address relative to the next instruction, two bytes behind a label. -/
theorem Instruction.encode_describes_lea :
    let i : Instruction :=
      ⟨.lea, [.register (.qword 0), .memory { base := some .rip, disp := 2, label := some ⟨3⟩ }]⟩
    let ctx : Context := { address := 0x1000, resolve := fun _ => some 0x2000, strict := true }
    let e : Encoded :=
      ⟨[0x48, 0x8D, 0x05, 0xFB, 0x0F, 0, 0], some ⟨3, 4, ⟨3⟩, .relative, 0, true⟩⟩
    i.encode .long64 ctx = .ok e ∧
      Fixup.Describes ⟨3, 4, ⟨3⟩, .relative, 0, true⟩ .long64 i ctx e := by
  intro i ctx e
  have hencode : i.encode .long64 ctx = .ok e := by decide +kernel
  exact ⟨hencode, encode_describes hencode rfl⟩

end X86Asm
