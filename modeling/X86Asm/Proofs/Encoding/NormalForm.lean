import Mathlib.Data.Int.ModEq
import X86Asm.Encoding.Encoded

/-!
# Normal forms

The normal form of an instruction is what the processor makes of it: constants count only up to the
width of the operand, displacements and branch targets only up to the width of an address, and a
scale only if there is an index. Labels are replaced by what their fields stand for.
-/

namespace X86Asm

/-- An operand as the processor sees it. -/
inductive NormalOperand where
  /-- A register. -/
  | register (r : Register)
  /-- A constant. -/
  | immediate (value : Int)
  /-- A place in memory: a base, an index with its scale, and a displacement. -/
  | memory (base : Option Register) (index : Option (Register × UInt8)) (disp : Int)
  /-- The address that a branch goes to. -/
  | target (address : Int)
deriving DecidableEq, Repr

/-- An instruction as the processor sees it. -/
structure NormalForm where
  /-- The operation. -/
  mnemonic : Mnemonic
  /-- The operands. -/
  operands : List NormalOperand
deriving DecidableEq, Repr

/-- The number of addresses that the instruction pointer and displacements tell apart. -/
def Mode.addresses (mode : Mode) : Int := 256 ^ mode.pointerBytes

/-- The address of a label, or zero if it is not known. -/
def Context.target (ctx : Context) (l : Label) : Int := ((ctx.resolve l).getD 0).toNat

/-- The value of the displacement field of an operand, in an instruction of `length` bytes. -/
def MemoryOperand.fieldValue (m : MemoryOperand) (ctx : Context) (length : Nat) : Int :=
  match m.label with
  | none => m.disp.toInt
  | some l =>
    if m.isRipRelative then ctx.target l + m.disp.toInt - (ctx.address.toNat + length)
    else ctx.target l + m.disp.toInt

/-- The normal form of a memory operand whose displacement field has a value. -/
def MemoryOperand.normalForm (mode : Mode) (m : MemoryOperand) (value : Int) : NormalOperand :=
  .memory m.base (m.index.map fun r => (r, m.scale)) (value % mode.addresses)

/-- The normal form of an operand, where constants have `bits` bits. -/
def Operand.normalForm (mode : Mode) (ctx : Context) (length bits : Nat) : Operand → NormalOperand
  | .register r => .register r
  | .immediate v => .immediate (v.toInt % 2 ^ bits)
  | .memory m => m.normalForm mode (m.fieldValue ctx length)
  | .label l => .target (ctx.target l % mode.addresses)

/-- The width of a constant: that of the destination, or 16 bits if there is none. -/
def Instruction.immediateBits (i : Instruction) : Nat :=
  match i.operands with
  | .register r :: _ => r.bits
  | _ => 16

/-- The normal form of an instruction of `length` bytes in a context. -/
def Instruction.normalForm (mode : Mode) (i : Instruction) (ctx : Context) (length : Nat) :
    NormalForm where
  mnemonic := i.mnemonic
  operands := i.operands.map (Operand.normalForm mode ctx length i.immediateBits)

end X86Asm
