import X86Asm.Encoding.Fields
import X86Asm.Encoding.Validity
import X86Asm.LittleEndian

/-!
# Templates

What an instruction looks like before its address and its label are known. `Instruction.template`
decides everything that does not depend on them, so it also decides whether there is an encoding
at all: an instruction is refused in one place of a program if and only if it is refused in all.

A template is a plain string of bytes, or bytes that end in a field for a label, or a branch that
still has the choice between its short and its near form.
-/

namespace X86Asm

/-- A field at the end of an instruction whose value depends on a label. -/
structure LabelField where
  /-- Width in bytes. -/
  width : Nat
  /-- The label. -/
  label : Label
  /-- How the value follows from the address of the label. -/
  kind : FixupKind
  /-- The constant that is added. -/
  addend : Int64 := 0
deriving DecidableEq, Repr

/-- A branch to a label. -/
structure Branch where
  /-- The opcode of the form with a one-byte displacement, if there is one. -/
  short? : Option UInt8
  /-- The opcode of the form with a wide displacement. -/
  near : List UInt8
  /-- Width of the wide displacement. -/
  nearWidth : Nat
  /-- The target. -/
  label : Label
deriving DecidableEq, Repr

/-- The form of an instruction before addresses are known. -/
inductive Template where
  /-- The bytes are the same everywhere. -/
  | fixed (bytes : List UInt8)
  /-- The bytes end in a field for a label. -/
  | labelled (lead : List UInt8) (field : LabelField)
  /-- A branch whose form depends on the distance. -/
  | branch (branch : Branch)
deriving DecidableEq, Repr

namespace Template

/-- An operation without operands. -/
def ofOpcode (opcode : UInt8) : List Operand → Except Refusal Template
  | [] => .ok (.fixed [opcode])
  | _ => .error .expectedNoOperands

/-- A return, with the number of bytes to drop from the stack if one is given. -/
def ofReturn : List Operand → Except Refusal Template
  | [] => .ok (.fixed [0xC3])
  | [.immediate v] => do
    Refusal.unless (liesWithin 0 0xFFFF v.toInt) (.immediate v 0 0xFFFF)
    return .fixed (0xC2 :: littleEndian 2 v.toInt)
  | _ => .error .expectedReturnOperand

/-- A push or a pop. In long mode these work on 64 bits without a prefix. -/
def ofStackOp (mode : Mode) (opcode : Nat) : List Operand → Except Refusal Template
  | [.register r] => do
    Refusal.unless (r.bits = 16 || r.bits = mode.addressBits) (.stackRegisterWidth r.bits)
    return .fixed (operandSizePrefix mode r.bits ++ rexPrefix false false false r.isExtended ++
      [UInt8.ofNat (opcode + r.code)])
  | _ => .error .expectedRegister

/-- An operation on two registers of one width. The wide opcode is one above the byte opcode. -/
def ofRegisters (mode : Mode) (opcode : Nat) (dst src : Register) : Except Refusal Template := do
  Refusal.unless (dst.bits = src.bits) .sizeMismatch
  return .fixed (operandSizePrefix mode src.bits ++
    rexPrefix (src.bits = 64) src.isExtended false dst.isExtended ++
    [UInt8.ofNat (if dst.bits = 8 then opcode else opcode + 1), modRM 3 src.code dst.code])

/-- An operation on a register and a place in memory. A REX prefix would turn a high byte into
another register, so the two exclude each other. -/
def ofMemory (mode : Mode) (opcode : UInt8) (r : Register) (m : MemoryOperand) :
    Except Refusal Template := do
  let x := m.index.any Register.isExtended
  let b := m.base.any Register.isExtended
  Refusal.unless (!(r.isHighByte && (x || b))) .highByteWithExtended
  let form := m.addressing mode r.code
  let lead := operandSizePrefix mode r.bits ++ rexPrefix (r.bits = 64) r.isExtended x b ++
    opcode :: form.lead
  match m.label with
  | none => return .fixed (lead ++ littleEndian form.width m.disp.toInt)
  | some label => return .labelled lead ⟨form.width, label, form.kind, m.disp⟩

/-- The least value of an operand of so many bits, read as signed. -/
def immediateMin (bits : Nat) : Int := -(Nat.pow 2 (bits - 1) : Nat)

/-- The greatest value of an operand: read as unsigned up to 32 bits, as signed at 64. -/
def immediateMax (bits : Nat) : Int :=
  if bits = 64 then 0x7FFFFFFFFFFFFFFF else (Nat.pow 2 bits : Nat) - 1

/-- Whether a value is a sign-extended 32-bit constant. -/
def fitsSigned32 (v : Int64) : Bool := liesWithin (-0x80000000) 0x7FFFFFFF v.toInt

/-- A move of a constant. A 64-bit register takes a sign-extended 32-bit constant if that will do,
since it is shorter. -/
def ofMoveImmediate (mode : Mode) (dst : Register) (v : Int64) : Except Refusal Template := do
  let lo := immediateMin dst.bits
  let hi := immediateMax dst.bits
  Refusal.unless (liesWithin lo hi v.toInt) (.immediate v lo hi)
  if dst.bits = 8 then
    return .fixed (UInt8.ofNat (0xB0 + dst.code) :: littleEndian 1 v.toInt)
  else if dst.bits = 64 && fitsSigned32 v then
    return .fixed (rexPrefix true false false dst.isExtended ++
      [0xC7, modRM 3 0 dst.code] ++ littleEndian 4 v.toInt)
  else
    return .fixed (operandSizePrefix mode dst.bits ++
      rexPrefix (dst.bits = 64) false false dst.isExtended ++
      UInt8.ofNat (0xB8 + dst.code) :: littleEndian (dst.bits / 8) v.toInt)

/-- A move. -/
def ofMove (mode : Mode) : List Operand → Except Refusal Template
  | [.register dst, .register src] => ofRegisters mode 0x88 dst src
  | [.register dst, .immediate v] => ofMoveImmediate mode dst v
  | [.register dst, .memory m] => ofMemory mode (if dst.bits = 8 then 0x8A else 0x8B) dst m
  | [.memory m, .register src] => ofMemory mode (if src.bits = 8 then 0x88 else 0x89) src m
  | _ => .error .unsupportedOperands

/-- A load of an effective address. -/
def ofLoadAddress (mode : Mode) : List Operand → Except Refusal Template
  | [.register dst, .memory m] => do
    Refusal.unless (dst.bits ≠ 8) .byteDestination
    ofMemory mode 0x8D dst m
  | _ => .error .expectedRegisterMemory

/-- An arithmetic operation with a constant. The constant takes one byte if its value as a signed
operand fits one; a 64-bit operand takes no constant wider than 32 bits. -/
def ofAluImmediate (mode : Mode) (op : AluOp) (dst : Register) (v : Int64) :
    Except Refusal Template := do
  let lo := if dst.bits = 64 then -0x80000000 else immediateMin dst.bits
  let hi := if dst.bits = 64 then 0x7FFFFFFF else immediateMax dst.bits
  Refusal.unless (liesWithin lo hi v.toInt) (.immediate v lo hi)
  let lead := operandSizePrefix mode dst.bits ++
    rexPrefix (dst.bits = 64) false false dst.isExtended
  let form := modRM 3 op.digit dst.code
  let signed := v.toInt.bmod (Nat.pow 2 dst.bits)
  if dst.bits = 8 then
    return .fixed (lead ++ [0x80, form] ++ littleEndian 1 v.toInt)
  else if liesWithin (-128) 127 signed then
    return .fixed (lead ++ [0x83, form] ++ littleEndian 1 signed)
  else
    return .fixed (lead ++ [0x81, form] ++ littleEndian (if dst.bits = 16 then 2 else 4) v.toInt)

/-- An arithmetic operation. -/
def ofAlu (mode : Mode) (op : AluOp) : List Operand → Except Refusal Template
  | [.register dst, .register src] => ofRegisters mode (8 * op.digit) dst src
  | [.register dst, .immediate v] => ofAluImmediate mode op dst v
  | _ => .error .unsupportedOperands

/-- Width in bits of a register that holds a branch target. -/
def targetBits (mode : Mode) : Nat :=
  match mode with
  | .long64 => 64
  | .real16 => 16
  | .legacy32 | .compat32 => 32

/-- A jump or a call through a register, selected by a digit. -/
def ofTargetRegister (mode : Mode) (digit : Nat) (r : Register) : Except Refusal Template := do
  Refusal.unless (r.bits = targetBits mode) (.targetWidth (targetBits mode))
  return .fixed (rexPrefix false false false r.isExtended ++ [0xFF, modRM 3 digit r.code])

/-- Width of the displacement of a near branch. -/
def nearBytes (mode : Mode) : Nat := if mode.isReal then 2 else 4

/-- An unconditional jump. -/
def ofJump (mode : Mode) : List Operand → Except Refusal Template
  | [.label l] => .ok (.branch ⟨some 0xEB, [0xE9], nearBytes mode, l⟩)
  | [.register r] => ofTargetRegister mode 4 r
  | _ => .error .expectedLabelOrRegister

/-- A call. It has no short form. -/
def ofCall (mode : Mode) : List Operand → Except Refusal Template
  | [.label l] => .ok (.branch ⟨none, [0xE8], nearBytes mode, l⟩)
  | [.register r] => ofTargetRegister mode 2 r
  | _ => .error .expectedLabelOrRegister

/-- A conditional jump. -/
def ofConditionalJump (mode : Mode) (c : Condition) : List Operand → Except Refusal Template
  | [.label l] =>
    .ok (.branch ⟨some (UInt8.ofNat (0x70 + c.code)), [0x0F, UInt8.ofNat (0x80 + c.code)],
      nearBytes mode, l⟩)
  | _ => .error .expectedLabel

/-- The template of an operation on operands that exist in the mode. -/
def ofOperands (mode : Mode) : Mnemonic → List Operand → Except Refusal Template
  | .nop => ofOpcode 0x90
  | .int3 => ofOpcode 0xCC
  | .hlt => ofOpcode 0xF4
  | .ret => ofReturn
  | .push => ofStackOp mode 0x50
  | .pop => ofStackOp mode 0x58
  | .mov => ofMove mode
  | .lea => ofLoadAddress mode
  | .alu op => ofAlu mode op
  | .jmp => ofJump mode
  | .call => ofCall mode
  | .jcc c => ofConditionalJump mode c

end Template

/-- The template of an instruction in a mode, or why there is none. -/
def Instruction.template (mode : Mode) (i : Instruction) : Except Refusal Template := do
  i.checkOperands mode
  Template.ofOperands mode i.mnemonic i.operands

end X86Asm
