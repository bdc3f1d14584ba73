import X86Asm.Encoding.Buffer
import X86Asm.Encoding.Template

/-!
# Encoding an instruction in its place

`Instruction.encode` turns a template into bytes once the address of the instruction is known and
labels can be looked up. A branch takes its short form if the target is known and near enough.

An unknown label leaves its field zero, and a value that does not fit is cut off, unless the
context is strict: then both are errors. So a relaxed context serves to find out lengths, and a
strict one to produce what will run.
-/

namespace X86Asm

/-- Where an instruction stands and how labels are looked up. -/
structure Context where
  /-- Address of the first byte. -/
  address : UInt64
  /-- The address of a label, as far as it is known. -/
  resolve : Label → Option UInt64
  /-- Whether unknown labels and values out of range are errors. -/
  strict : Bool := false
  /-- Whether branches are kept in their near form. -/
  near : Bool := false

/-- The context without its labels, for diagnostics. -/
def Context.text (ctx : Context) : String :=
  "EncodeContext \x7b address: " ++ toString ctx.address ++ ", strict: " ++ toString ctx.strict ++
    ", near: " ++ toString ctx.near ++ ", .. \x7d"

/-- A field of an encoded instruction that depends on a label. -/
structure Fixup where
  /-- Offset of the field from the start of the instruction. -/
  offset : Nat
  /-- Width in bytes. -/
  width : Nat
  /-- The label. -/
  label : Label
  /-- How the value follows from the address of the label. -/
  kind : FixupKind
  /-- Number of bytes of the instruction after the field. -/
  trailing : Nat
  /-- Whether the field holds its value; otherwise it is zero. -/
  resolved : Bool
deriving DecidableEq, Repr

/-- An encoded instruction. -/
structure Encoded where
  /-- The bytes. -/
  bytes : List UInt8
  /-- The field that depends on a label, if there is one. -/
  fixup : Option Fixup
deriving DecidableEq, Repr

/-- The bytes in a buffer for one instruction. -/
def Encoded.buffer (e : Encoded) : Except InstructionBuffer.Overflow InstructionBuffer :=
  InstructionBuffer.ofList e.bytes

/-- The values that a field may hold in a strict context, both bounds included; `none` if it may
hold any and wraps. One-byte fields and, in long mode, four-byte fields are sign-extended by the
processor. An absolute address may be written as signed or as unsigned. Wide relative fields
outside long mode wrap around the segment. -/
def fieldRange? (mode : Mode) (kind : FixupKind) (width : Nat) : Option (Int × Int) :=
  if width = 1 then some (-0x80, 0x7F)
  else if width = 4 && mode.isLong then some (-0x80000000, 0x7FFFFFFF)
  else
    match kind, width with
    | .absolute, 4 => some (-0x80000000, 0xFFFFFFFF)
    | .absolute, 2 => some (-0x8000, 0xFFFF)
    | _, _ => none

/-- Whether a field may hold a value in a strict context. -/
def fieldFits (mode : Mode) (kind : FixupKind) (width : Nat) (value : Int) : Bool :=
  match fieldRange? mode kind width with
  | none => true
  | some (lo, hi) => liesWithin lo hi value

/-- Whether the context lets the branch take its short form. The window is symmetric: a distance
of -128, which would fit, takes the near form. -/
def Branch.takesShort (b : Branch) (ctx : Context) : Bool :=
  !ctx.near && b.short?.isSome &&
    (ctx.resolve b.label).any fun target =>
      liesWithin (-127) 127 ((target.toNat : Int) - (ctx.address.toNat + 2))

/-- The bytes of a template up to its label field, and the field, in a context. -/
def Template.settle (ctx : Context) : Template → List UInt8 × Option LabelField
  | .fixed bytes => (bytes, none)
  | .labelled lead field => (lead, some field)
  | .branch b =>
    match b.short? with
    | some opcode =>
      if b.takesShort ctx then ([opcode], some ⟨1, b.label, .relative, 0⟩)
      else (b.near, some ⟨b.nearWidth, b.label, .relative, 0⟩)
    | none => (b.near, some ⟨b.nearWidth, b.label, .relative, 0⟩)

/-- The value that the field takes for a label at `target`, in an instruction of `length` bytes. -/
def LabelField.value (field : LabelField) (ctx : Context) (length : Nat) (target : UInt64) : Int :=
  match field.kind with
  | .absolute => target.toNat + field.addend.toInt
  | .relative => target.toNat + field.addend.toInt - (ctx.address.toNat + length)

/-- The instruction that consists of the bytes `lead` and of the field, which ends it. -/
def LabelField.fill (mode : Mode) (ctx : Context) (lead : List UInt8) (field : LabelField) :
    Except Error Encoded :=
  let fixup (resolved : Bool) : Fixup :=
    { offset := lead.length, width := field.width, label := field.label, kind := field.kind,
      trailing := 0, resolved }
  match ctx.resolve field.label with
  | none =>
    if ctx.strict then .error (.unresolvedLabel field.label.id none)
    else .ok ⟨lead ++ List.replicate field.width 0, some (fixup false)⟩
  | some target =>
    let value := field.value ctx (lead.length + field.width) target
    if ctx.strict && !fieldFits mode field.kind field.width value then
      .error (.displacementOutOfRange field.label.id (Int64.ofInt value) (UInt8.ofNat field.width))
    else .ok ⟨lead ++ littleEndian field.width value, some (fixup true)⟩

/-- The instruction that a template becomes in a context. -/
def Template.fill (mode : Mode) (ctx : Context) (t : Template) : Except Error Encoded :=
  match t.settle ctx with
  | (bytes, none) => .ok ⟨bytes, none⟩
  | (lead, some field) => field.fill mode ctx lead

/-- The bytes of an instruction in a context, and its label field. -/
def Instruction.encode (mode : Mode) (i : Instruction) (ctx : Context) : Except Error Encoded :=
  match i.template mode with
  | .error refusal => .error (refusal.toError mode i.mnemonic)
  | .ok t => t.fill mode ctx

end X86Asm
