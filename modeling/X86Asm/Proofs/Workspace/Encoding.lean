import X86Asm.Proofs.Encoding.Bounds
import X86Asm.Proofs.Workspace.Guarded

/-!
# Encoding into a buffer

An instruction is put together in a buffer of fixed size: the bytes in front of its label field are
pushed, zeros are pushed for the field, and once the length is known the value is written over
them. `Instruction.write` does that with guarded operations, among them the lookup of the label.

As no instruction is too long for the buffer and the field lies within it, what is written is what
is encoded (`Instruction.write_eq`), and no operation has a fault.
-/

namespace X86Asm

open Guarded

variable {mode : Mode} {i : Instruction} {t : Template} {ctx : Context} {b : InstructionBuffer}
  {lead : List UInt8} {field : LabelField}

namespace InstructionBuffer

/-- Pushes bytes one after the other. -/
def pushAll (b : InstructionBuffer) (bytes : List UInt8) : Guarded InstructionBuffer :=
  bytes.foldlM (fun b byte => (b.push byte).mapError fun o => .fault (.buffer o)) b

/-- Writes bytes over those from an offset on. -/
def patch (b : InstructionBuffer) (offset : Nat) (bytes : List UInt8) : Guarded InstructionBuffer :=
  if h : offset + bytes.length ≤ b.size then
    .ok ⟨b.bytes.take offset ++ bytes ++ b.bytes.drop (offset + bytes.length), by
      have := b.length_le
      simp only [size, List.length_append, List.length_take, List.length_drop] at h ⊢
      omega⟩
  else .error (.fault .range)

/-- Bytes that there is room for are pushed. -/
theorem exists_pushAll (b : InstructionBuffer) (bytes : List UInt8)
    (h : b.size + bytes.length ≤ 16) :
    ∃ b', b.pushAll bytes = .ok b' ∧ b'.bytes = b.bytes ++ bytes := by
  induction bytes generalizing b with
  | nil => exact ⟨b, rfl, (List.append_nil _).symm⟩
  | cons byte bytes ih =>
    have hroom : (b.bytes ++ [byte]).length ≤ 16 := by
      simp only [size, List.length_cons] at h
      simp only [List.length_append, List.length_cons, List.length_nil]
      omega
    have hpush : b.push byte = .ok ⟨b.bytes ++ [byte], hroom⟩ := dif_pos hroom
    obtain ⟨b', hb', hbytes⟩ := ih ⟨b.bytes ++ [byte], hroom⟩ (by
      simp only [size, List.length_cons, List.length_append, List.length_nil] at h ⊢
      omega)
    refine ⟨b', ?_, by rw [hbytes, List.append_assoc]; rfl⟩
    rw [pushAll, List.foldlM_cons, hpush]
    exact hb'

/-- What is patched at the end of a buffer replaces as many bytes there. -/
theorem exists_patch {zeros : List UInt8} (hb : b.bytes = lead ++ zeros) (bytes : List UInt8)
    (h : bytes.length = zeros.length) :
    ∃ b', b.patch lead.length bytes = .ok b' ∧ b'.bytes = lead ++ bytes := by
  have hroom : lead.length + bytes.length ≤ b.size := by
    rw [size, hb, List.length_append, h]
  refine ⟨_, dif_pos hroom, ?_⟩
  simp [hb, h]

end InstructionBuffer

/-! ## Writing -/

/-- Where an instruction is written, and how labels are looked up. -/
structure Site where
  /-- Address of the first byte. -/
  address : UInt64
  /-- Looks up the address of a label, as far as it is known. -/
  lookup : Label → Guarded (Option UInt64)
  /-- Whether unknown labels and values out of range are errors. -/
  strict : Bool := false
  /-- Whether branches are kept in their near form. -/
  near : Bool := false

/-- The site of a context, where lookups have no faults. -/
def Context.site (ctx : Context) : Site where
  address := ctx.address
  lookup l := .ok (ctx.resolve l)
  strict := ctx.strict
  near := ctx.near

/-- Whether the branch takes its short form. The label is looked up only if there is a choice. -/
def Branch.choose (b : Branch) (site : Site) : Guarded Bool :=
  if site.near || b.short?.isNone then return false
  else do
    let target ← site.lookup b.label
    return target.any fun target =>
      liesWithin (-127) 127 ((target.toNat : Int) - (site.address.toNat + 2))

/-- The bytes of a template up to its label field, and the field. -/
def Template.choose (site : Site) : Template → Guarded (List UInt8 × Option LabelField)
  | .fixed bytes => return (bytes, none)
  | .labelled lead field => return (lead, some field)
  | .branch b => do
    match b.short?, ← b.choose site with
    | some opcode, true => return ([opcode], some ⟨1, b.label, .relative, 0⟩)
    | _, _ => return (b.near, some ⟨b.nearWidth, b.label, .relative, 0⟩)

/-- Writes the value of a field over the zeros at an offset. -/
def LabelField.write (mode : Mode) (site : Site) (field : LabelField) (offset : Nat)
    (b : InstructionBuffer) : Guarded Encoded := do
  let behind ← sub b.size offset
  let trailing ← sub behind field.width
  let fixup (resolved : Bool) : Fixup :=
    { offset, width := field.width, label := field.label, kind := field.kind, trailing, resolved }
  match ← site.lookup field.label with
  | none =>
    if site.strict then report (.unresolvedLabel field.label.id none)
    else return ⟨b.bytes, some (fixup false)⟩
  | some target =>
    let value :=
      field.value { address := site.address, resolve := fun _ => some target } b.size target
    if site.strict && !fieldFits mode field.kind field.width value then
      report (.displacementOutOfRange field.label.id (Int64.ofInt value) (UInt8.ofNat field.width))
    else do
      let bytes ← slice (littleEndian 8 value) field.width
      let b ← b.patch offset bytes
      return ⟨b.bytes, some (fixup true)⟩

/-- Writes what a template becomes. -/
def Template.write (mode : Mode) (site : Site) (t : Template) : Guarded Encoded := do
  let (lead, field) ← t.choose site
  let b ← InstructionBuffer.empty.pushAll lead
  match field with
  | none => return ⟨b.bytes, none⟩
  | some field => do
    let zeros ← slice (List.replicate 4 0) field.width
    let zeroed ← b.pushAll zeros
    field.write mode site b.size zeroed

/-- Writes an instruction. -/
def Instruction.write (mode : Mode) (i : Instruction) (site : Site) : Guarded Encoded :=
  match i.template mode with
  | .error refusal => report (refusal.toError mode i.mnemonic)
  | .ok t => t.write mode site

/-! ## What is written -/

/-- A narrower field holds the first bytes of a wider one. -/
theorem take_littleEndian {n k : Nat} (h : k ≤ n) (v : Int) :
    (littleEndian n v).take k = littleEndian k v := by
  induction k generalizing n v with
  | zero => rfl
  | succ k ih =>
    obtain ⟨n, rfl⟩ : ∃ m, n = m + 1 := ⟨n - 1, by omega⟩
    rw [littleEndian, littleEndian, List.take_succ_cons, ih (Nat.le_of_succ_le_succ h)]

/-- The first bytes of a value in eight bytes are the value in so many bytes. -/
theorem slice_littleEndian {n : Nat} (h : n ≤ 8) (v : Int) :
    slice (littleEndian 8 v) n = .ok (littleEndian n v) := by
  rw [slice_eq (by rwa [length_littleEndian]), take_littleEndian h]

/-- The form of a branch is chosen without a fault, as its context tells. -/
theorem Branch.choose_site (b : Branch) (ctx : Context) :
    b.choose ctx.site = .ok (b.takesShort ctx) := by
  unfold choose takesShort Context.site
  cases ctx.near with
  | true => rfl
  | false => cases b.short? <;> rfl

/-- The bytes of a template are chosen without a fault, as its context tells. -/
theorem Template.choose_site (t : Template) (ctx : Context) :
    t.choose ctx.site = .ok (t.settle ctx) := by
  cases t with
  | fixed bytes => rfl
  | labelled lead field => rfl
  | branch b =>
    simp only [choose, Branch.choose_site, settle]
    cases b.short? with
    | none => rfl
    | some opcode => cases b.takesShort ctx <;> rfl

/-- Over zeros at the end of a buffer a field is written as it is filled in. -/
theorem LabelField.write_eq (hb : b.bytes = lead ++ List.replicate field.width 0)
    (hwidth : field.width ≤ 4) :
    field.write mode ctx.site lead.length b = embed (field.fill mode ctx lead) := by
  have hsize : b.size = lead.length + field.width := by
    rw [InstructionBuffer.size, hb, List.length_append, List.length_replicate]
  have hbehind : sub b.size lead.length = .ok field.width := by
    rw [sub_eq (by omega), hsize, Nat.add_sub_cancel_left]
  have htrailing : sub field.width field.width = .ok 0 := by
    rw [sub_eq (Nat.le_refl _), Nat.sub_self]
  -- the field ends the buffer, so the size of the buffer is the length of the instruction
  have hvalue (target : UInt64) :
      field.value { address := ctx.address, resolve := fun _ => some target } b.size target =
        field.value ctx (lead.length + field.width) target := by
    rw [hsize]
    rfl
  simp only [write, fill, Context.site, hbehind, htrailing, hvalue, ok_bind]
  cases ctx.resolve field.label with
  | none =>
    simp only [hb]
    split <;> rfl
  | some target =>
    simp only
    split
    · rfl
    · have height : field.width ≤ 8 := Nat.le_trans hwidth (by decide)
      obtain ⟨b', hpatch, hbytes⟩ := InstructionBuffer.exists_patch hb
        (littleEndian field.width (field.value ctx (lead.length + field.width) target))
        (by rw [length_littleEndian, List.length_replicate])
      rw [slice_littleEndian height, ok_bind, hpatch, ok_bind, hbytes]
      rfl

/-- A bounded template is written as it is filled in. -/
theorem Template.write_eq (h : t.Bounded) : t.write mode ctx.site = embed (t.fill mode ctx) := by
  obtain ⟨-, hle, hwidth⟩ := h.settle ctx
  rw [write, choose_site, ok_bind, fill]
  rcases hsettle : t.settle ctx with ⟨lead, field⟩
  rw [hsettle] at hle hwidth
  obtain ⟨b, hpush, hb⟩ := InstructionBuffer.exists_pushAll .empty lead (by
    simp only [InstructionBuffer.size, InstructionBuffer.empty, List.length_nil] at hle ⊢
    omega)
  have hlead : b.bytes = lead := hb
  simp only [hpush, ok_bind]
  cases field with
  | none => rw [hlead]; rfl
  | some field =>
    have hsize : b.size = lead.length := congrArg List.length hlead
    have hfour : field.width ≤ 4 := hwidth field rfl
    -- zeros for the field come from a slice of four, as no field is wider
    have hslice : slice (List.replicate 4 0) field.width =
        .ok (List.replicate field.width (0 : UInt8)) := by
      rw [slice_eq (by rwa [List.length_replicate]), List.take_replicate, Nat.min_eq_left hfour]
    obtain ⟨zeroed, hzero, hzeroed⟩ := InstructionBuffer.exists_pushAll b
      (List.replicate field.width 0) (by
        rw [hsize, List.length_replicate]
        exact Nat.le_succ_of_le hle)
    simp only [hslice, hzero, ok_bind, hsize]
    exact LabelField.write_eq (hlead ▸ hzeroed) hfour

/-- **Encoding has no fault.** What is written into a buffer is what is encoded. -/
theorem Instruction.write_eq (mode : Mode) (i : Instruction) (ctx : Context) :
    i.write mode ctx.site = embed (i.encode mode ctx) := by
  unfold write encode
  cases ht : i.template mode with
  | error refusal => rfl
  | ok t => exact Template.write_eq (bounded_template ht)

end X86Asm
