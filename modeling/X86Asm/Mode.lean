/-!
# Machine modes

The processor mode that code is assembled for. It fixes the width of an address, the default
operand size, and which registers and addressing forms exist.
-/

namespace X86Asm

/-- A processor mode. -/
inductive Mode where
  /-- 16-bit real mode. -/
  | real16
  /-- 32-bit protected mode. -/
  | legacy32
  /-- The 32-bit compatibility sub-mode of long mode. -/
  | compat32
  /-- 64-bit long mode. -/
  | long64
deriving DecidableEq, Repr

namespace Mode

/-- Every mode. -/
def all : List Mode := [real16, legacy32, compat32, long64]

/-- Whether this is 64-bit long mode. -/
def isLong : Mode → Bool
  | long64 => true
  | _ => false

/-- Whether this is 16-bit real mode. -/
def isReal : Mode → Bool
  | real16 => true
  | _ => false

/-- Width of an address in bytes. -/
def pointerBytes : Mode → Nat
  | real16 => 2
  | legacy32 | compat32 => 4
  | long64 => 8

/-- Operand size in bits of an instruction without an operand-size prefix. -/
def defaultOperandBits (m : Mode) : Nat :=
  if m.isReal then 16 else 32

/-- Width in bits of a register that takes part in an address. -/
def addressBits (m : Mode) : Nat :=
  if m.isLong then 64 else 32

/-- The mode in words, as messages show it. -/
def text : Mode → String
  | real16 => "16-bit"
  | legacy32 => "32-bit"
  | compat32 => "32-bit compat"
  | long64 => "64-bit"

end Mode

end X86Asm
