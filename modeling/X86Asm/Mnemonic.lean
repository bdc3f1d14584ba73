/-!
# Mnemonics

The operations that can be assembled. Conditional jumps carry their condition, and the six
two-operand arithmetic operations share one encoding scheme in which the operation is a digit.
-/

namespace X86Asm

/-- The condition of a conditional jump, in the order of its encoding. -/
inductive Condition where
  /-- Overflow. -/
  | overflow
  /-- No overflow. -/
  | noOverflow
  /-- Below, unsigned. -/
  | below
  /-- Above or equal, unsigned. -/
  | aboveOrEqual
  /-- Equal. -/
  | equal
  /-- Not equal. -/
  | notEqual
  /-- Below or equal, unsigned. -/
  | belowOrEqual
  /-- Above, unsigned. -/
  | above
  /-- Negative. -/
  | sign
  /-- Not negative. -/
  | noSign
  /-- Even parity. -/
  | parity
  /-- Odd parity. -/
  | noParity
  /-- Less, signed. -/
  | less
  /-- Greater or equal, signed. -/
  | greaterOrEqual
  /-- Less or equal, signed. -/
  | lessOrEqual
  /-- Greater, signed. -/
  | greater
deriving DecidableEq, Repr

namespace Condition

/-- Every condition, in the order of the encoding. -/
def all : List Condition :=
  [overflow, noOverflow, below, aboveOrEqual, equal, notEqual, belowOrEqual, above,
    sign, noSign, parity, noParity, less, greaterOrEqual, lessOrEqual, greater]

/-- The four bits that encode the condition. -/
def code : Condition → Nat
  | overflow => 0
  | noOverflow => 1
  | below => 2
  | aboveOrEqual => 3
  | equal => 4
  | notEqual => 5
  | belowOrEqual => 6
  | above => 7
  | sign => 8
  | noSign => 9
  | parity => 10
  | noParity => 11
  | less => 12
  | greaterOrEqual => 13
  | lessOrEqual => 14
  | greater => 15

/-- The letters that follow `j` in the mnemonic of the jump. -/
def suffix : Condition → String
  | overflow => "o"
  | noOverflow => "no"
  | below => "b"
  | aboveOrEqual => "ae"
  | equal => "e"
  | notEqual => "ne"
  | belowOrEqual => "be"
  | above => "a"
  | sign => "s"
  | noSign => "ns"
  | parity => "p"
  | noParity => "np"
  | less => "l"
  | greaterOrEqual => "ge"
  | lessOrEqual => "le"
  | greater => "g"

end Condition

/-- A two-operand arithmetic or logic operation. -/
inductive AluOp where
  /-- Addition. -/
  | add
  /-- Bitwise or. -/
  | or
  /-- Bitwise and. -/
  | and
  /-- Subtraction. -/
  | sub
  /-- Bitwise exclusive or. -/
  | xor
  /-- Comparison: a subtraction that keeps the flags only. -/
  | cmp
deriving DecidableEq, Repr

namespace AluOp

/-- The digit that selects the operation within the group. -/
def digit : AluOp → Nat
  | add => 0
  | or => 1
  | and => 4
  | sub => 5
  | xor => 6
  | cmp => 7

/-- The mnemonic. -/
def name : AluOp → String
  | add => "add"
  | or => "or"
  | and => "and"
  | sub => "sub"
  | xor => "xor"
  | cmp => "cmp"

end AluOp

/-- The operation of an instruction. -/
inductive Mnemonic where
  /-- No operation. -/
  | nop
  /-- Breakpoint. -/
  | int3
  /-- Halt. -/
  | hlt
  /-- Return, if wanted dropping bytes from the stack. -/
  | ret
  /-- Push a register. -/
  | push
  /-- Pop a register. -/
  | pop
  /-- Move. -/
  | mov
  /-- Load an effective address. -/
  | lea
  /-- Arithmetic or logic. -/
  | alu (op : AluOp)
  /-- Jump. -/
  | jmp
  /-- Call. -/
  | call
  /-- Jump if the condition holds. -/
  | jcc (condition : Condition)
deriving DecidableEq, Repr

namespace Mnemonic

/-- Every mnemonic other than the conditional jumps. -/
def unconditional : List Mnemonic :=
  [nop, int3, hlt, ret, push, pop, mov, lea, alu .add, alu .or, alu .and, alu .sub, alu .xor,
    alu .cmp, jmp, call]

/-- Every mnemonic. -/
def all : List Mnemonic := unconditional ++ Condition.all.map jcc

/-- The digit of an arithmetic operation. -/
def aluDigit? : Mnemonic → Option Nat
  | alu op => some op.digit
  | _ => none

/-- Whether a branch of this kind to a label has a short and a near form. -/
def isRelaxable : Mnemonic → Bool
  | jmp | jcc _ => true
  | _ => false

/-- The mnemonic in assembly text. -/
def name : Mnemonic → String
  | nop => "nop"
  | int3 => "int3"
  | hlt => "hlt"
  | ret => "ret"
  | push => "push"
  | pop => "pop"
  | mov => "mov"
  | lea => "lea"
  | alu op => op.name
  | jmp => "jmp"
  | call => "call"
  | jcc c => "j" ++ c.suffix

end Mnemonic

end X86Asm
