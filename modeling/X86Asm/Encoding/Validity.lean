import X86Asm.Error
import X86Asm.Instruction

/-!
# Which operands exist in a mode

Before an instruction is encoded each of its operands is checked by itself, in order. A register
has to exist in the mode, and a memory operand has to be one of the addressing forms of the mode.
What is wrong is a `Refusal`; its wording as an error is in `Refusal.toError`.
-/

namespace X86Asm

/-- Why an instruction has no encoding. -/
inductive Refusal where
  /-- The register exists in long mode only. -/
  | registerOutsideLongMode (r : Register)
  /-- Real mode has no registers in addresses. -/
  | registerAddressInRealMode
  /-- Addresses relative to `rip` exist in long mode only. -/
  | ripAddressOutsideLongMode
  /-- The instruction pointer is an operand. -/
  | ripOperand
  /-- An address relative to `rip` has an index. -/
  | ripWithIndex
  /-- A register of an address has the wrong width. -/
  | addressRegisterWidth (r : Register) (bits : Nat)
  /-- The stack pointer is an index. -/
  | stackPointerIndex
  /-- The scale is none of the four. -/
  | scale
  /-- A label stands beside a register that is not `rip`. -/
  | labelWithRegisters
  /-- The displacement is too wide for the mode. -/
  | displacement
  /-- A high byte is used together with an extended register. -/
  | highByteWithExtended
  /-- Two registers differ in width. -/
  | sizeMismatch
  /-- There should be no operand. -/
  | expectedNoOperands
  /-- There should be nothing or a constant. -/
  | expectedReturnOperand
  /-- There should be one register. -/
  | expectedRegister
  /-- Registers of this width are not pushed or popped in the mode. -/
  | stackRegisterWidth (bits : Nat)
  /-- The operation does not take operands of these kinds. -/
  | unsupportedOperands
  /-- There should be a register and a place in memory. -/
  | expectedRegisterMemory
  /-- An address cannot be loaded into eight bits. -/
  | byteDestination
  /-- The register that holds a branch target has the wrong width. -/
  | targetWidth (bits : Nat)
  /-- There should be a label. -/
  | expectedLabel
  /-- There should be a label or a register. -/
  | expectedLabelOrRegister
  /-- A constant lies outside its range. -/
  | immediate (value : Int64) (min max : Int)
deriving DecidableEq, Repr

namespace Refusal

/-- The refusal of an operation in a mode, as an error. -/
def toError (mode : Mode) (mnemonic : Mnemonic) : Refusal → Error
  | registerOutsideLongMode r => .invalidMode mode ("register " ++ r.name)
  | registerAddressInRealMode => .invalidMode mode "base or index register in a memory operand"
  | ripAddressOutsideLongMode => .invalidMode mode "rip-relative addressing"
  | immediate value min max =>
    .immediateOverflow (.ofInt 128 value.toInt) (.ofInt 128 min) (.ofInt 128 max)
  | ripOperand => operands "rip is only valid as a memory base"
  | ripWithIndex => operands "rip-relative operand cannot have an index"
  | addressRegisterWidth r bits =>
    operands ("address register " ++ r.name ++ " must be " ++ toString bits ++ "-bit")
  | stackPointerIndex => operands "stack pointer cannot be an index register"
  | scale => operands "scale must be 1, 2, 4 or 8"
  | labelWithRegisters =>
    operands "label address cannot be combined with base or index registers"
  | displacement => operands "displacement does not fit the address size"
  | highByteWithExtended =>
    operands "high-byte registers (AH, BH, CH, DH) cannot be used with R8-R15 addressing"
  | sizeMismatch => operands "operand size mismatch"
  | expectedNoOperands => operands "expected no operands"
  | expectedReturnOperand => operands "expected no operand or imm16"
  | expectedRegister => operands "expected a register operand"
  | stackRegisterWidth bits =>
    operands (toString bits ++ "-bit register not allowed in " ++ mode.text ++ " mode")
  | unsupportedOperands => operands "unsupported operand combination"
  | expectedRegisterMemory => operands "expected register, memory"
  | byteDestination => operands "destination cannot be an 8-bit register"
  | targetWidth bits => operands ("target register must be " ++ toString bits ++ "-bit")
  | expectedLabel => operands "expected a label"
  | expectedLabelOrRegister => operands "expected a label or register"
where
  /-- An error about the operands of the operation. -/
  operands (detail : String) : Error := .invalidOperands mnemonic.name detail

end Refusal

/-- Whether a value lies between two bounds, both included. -/
def liesWithin (min max value : Int) : Bool := min ≤ value && value ≤ max

/-- Refuses unless the condition holds. -/
def Refusal.unless (holds : Bool) (refusal : Refusal) : Except Refusal Unit :=
  if holds then .ok () else .error refusal

namespace Register

/-- The register exists in the mode. -/
def check (mode : Mode) (r : Register) : Except Refusal Unit :=
  Refusal.unless (r.existsIn mode) (.registerOutsideLongMode r)

/-- The register may take part in an address of the mode; `rip` is judged elsewhere. -/
def checkAddress (mode : Mode) (r : Register) : Except Refusal Unit := do
  if r = .rip then return
  r.check mode
  Refusal.unless (r.bits = mode.addressBits) (.addressRegisterWidth r mode.addressBits)

end Register

namespace MemoryOperand

/-- Whether the constant displacement fits the addresses of the mode. -/
def dispFits (mode : Mode) (m : MemoryOperand) : Bool :=
  if mode.isReal then liesWithin (-0x8000) 0xFFFF m.disp.toInt
  else liesWithin (-0x80000000) 0x7FFFFFFF m.disp.toInt

/-- The operand is an addressing form of the mode. -/
def check (mode : Mode) (m : MemoryOperand) : Except Refusal Unit := do
  Refusal.unless (!mode.isReal || m.base.isNone && m.index.isNone) .registerAddressInRealMode
  Refusal.unless (!m.isRipRelative || mode.isLong) .ripAddressOutsideLongMode
  Refusal.unless (!m.isRipRelative || m.index.isNone) .ripWithIndex
  (m.base.toList ++ m.index.toList).forM (·.checkAddress mode)
  Refusal.unless (m.index.all fun r => !r.isStackPointer && r != .rip) .stackPointerIndex
  Refusal.unless (m.scale ∈ [1, 2, 4, 8]) .scale
  Refusal.unless
    (m.label.isNone || m.index.isNone && (m.base.isNone || m.isRipRelative)) .labelWithRegisters
  Refusal.unless (m.dispFits mode || m.label.isSome) .displacement

end MemoryOperand

namespace Operand

/-- The operand exists in the mode. -/
def check (mode : Mode) : Operand → Except Refusal Unit
  | register .rip => .error .ripOperand
  | register r => r.check mode
  | memory m => m.check mode
  | immediate _ | label _ => .ok ()

end Operand

/-- Every operand of the instruction exists in the mode. -/
def Instruction.checkOperands (mode : Mode) (i : Instruction) : Except Refusal Unit :=
  i.operands.forM (·.check mode)

end X86Asm
