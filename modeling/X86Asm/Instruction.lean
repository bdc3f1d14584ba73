import X86Asm.Label
import X86Asm.Mnemonic
import X86Asm.Register

/-!
# Instructions

Operands and instructions as they are written, before anything is known about addresses: a label
stands for the address it will get. Building one checks nothing; what can be encoded is decided
in `X86Asm.Encoding.Validity` and `X86Asm.Encoding.Template`.
-/

namespace X86Asm

/-- A memory operand. With a label, the address of the label is added to the displacement:
relative to the next instruction if the base is `rip`, absolute if there is no register. -/
structure MemoryOperand where
  /-- The base register. -/
  base : Option Register := none
  /-- The index register. -/
  index : Option Register := none
  /-- What the index is multiplied with. -/
  scale : UInt8 := 1
  /-- The constant part of the displacement. -/
  disp : Int64 := 0
  /-- The label whose address is part of the displacement. -/
  label : Option Label := none
deriving DecidableEq, Repr

namespace MemoryOperand

/-- The operand at a constant address. -/
def absolute (disp : Int64) : MemoryOperand := { disp }

/-- The operand at the address of a label. -/
def ofLabel (l : Label) : MemoryOperand := { label := some l }

/-- Whether the base is the instruction pointer. -/
def isRipRelative (m : MemoryOperand) : Bool := m.base = some .rip

/-- The signed terms of the address in the order in which they are written. -/
def terms (m : MemoryOperand) : List String :=
  (m.base.map Register.name).toList ++
    (m.index.map fun r => r.name ++ "*" ++ toString m.scale).toList ++
    (m.label.map Label.text).toList

/-- The operand in assembly text. The displacement is left out if it is zero and something else is
there to be written. -/
def text (m : MemoryOperand) : String :=
  let terms := "+".intercalate m.terms
  let disp :=
    if m.terms.isEmpty then toString m.disp.toInt
    else if m.disp = 0 then ""
    else if 0 ≤ m.disp.toInt then "+" ++ toString m.disp.toInt
    else toString m.disp.toInt
  "[" ++ terms ++ disp ++ "]"

end MemoryOperand

/-- An operand of an instruction. -/
inductive Operand where
  /-- A register. -/
  | register (r : Register)
  /-- A constant. -/
  | immediate (value : Int64)
  /-- A place in memory. -/
  | memory (m : MemoryOperand)
  /-- The target of a branch. -/
  | label (l : Label)
deriving DecidableEq, Repr

namespace Operand

/-- The label that the operand mentions. -/
def label? : Operand → Option Label
  | label l => some l
  | memory m => m.label
  | _ => none

/-- The operand in assembly text. -/
def text : Operand → String
  | register r => r.name
  | immediate v => toString v.toInt
  | memory m => m.text
  | label l => l.text

end Operand

/-- An instruction: an operation and its operands, the destination first. -/
structure Instruction where
  /-- The operation. -/
  mnemonic : Mnemonic
  /-- The operands. -/
  operands : List Operand := []
deriving DecidableEq, Repr

namespace Instruction

/-- The first label that an operand mentions. -/
def label? (i : Instruction) : Option Label := i.operands.findSome? Operand.label?

/-- Whether the bytes depend on the address of a label. -/
def isAddressDependent (i : Instruction) : Bool := i.label?.isSome

/-- The instruction in assembly text. -/
def text (i : Instruction) : String :=
  match i.operands with
  | [] => i.mnemonic.name
  | operands => i.mnemonic.name ++ " " ++ ", ".intercalate (operands.map Operand.text)

end Instruction

end X86Asm
