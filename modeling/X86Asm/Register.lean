import X86Asm.Mode

/-!
# Registers

A general-purpose register is its width class together with its number. The number splits into
the three bits that go into an instruction's register field (`Register.code`) and the fourth bit
that a REX prefix carries (`Register.isExtended`).

Byte registers 4 to 7 are the high bytes `ah`, `ch`, `dh` and `bh`.
-/

namespace X86Asm

/-- An x86 general-purpose register, or the instruction pointer. -/
inductive Register where
  /-- A 64-bit register. -/
  | qword (number : Fin 16)
  /-- A 32-bit register. -/
  | dword (number : Fin 16)
  /-- A 16-bit register. -/
  | word (number : Fin 8)
  /-- An 8-bit register. -/
  | byte (number : Fin 8)
  /-- The instruction pointer, which only the base of a memory operand may name. -/
  | rip
deriving DecidableEq, Repr

namespace Register

/-- The number within the class; the instruction pointer takes the place of number 5. -/
def number : Register → Nat
  | qword n | dword n => n
  | word n | byte n => n
  | rip => 5

/-- The low three bits of the number, as register fields hold them. -/
def code (r : Register) : Nat := r.number % 8

/-- Whether the fourth bit of the number is set (the `r8` to `r15` family). -/
def isExtended (r : Register) : Bool := 8 ≤ r.number

/-- Width in bits. -/
def bits : Register → Nat
  | qword _ | rip => 64
  | dword _ => 32
  | word _ => 16
  | byte _ => 8

/-- Whether this is `ah`, `ch`, `dh` or `bh`. -/
def isHighByte : Register → Bool
  | byte n => 4 ≤ n.val
  | _ => false

/-- Whether the register exists in long mode only. -/
def needsLongMode (r : Register) : Bool := r.bits = 64 || r.isExtended

/-- Whether the register exists in the mode. -/
def existsIn (r : Register) (m : Mode) : Bool := !r.needsLongMode || m.isLong

/-- Whether the register is the 32-bit or 64-bit stack pointer. -/
def isStackPointer : Register → Bool
  | qword 4 | dword 4 => true
  | _ => false

/-- Names of the 64-bit registers by number. -/
def qwordNames : Vector String 16 :=
  #v["rax", "rcx", "rdx", "rbx", "rsp", "rbp", "rsi", "rdi",
    "r8", "r9", "r10", "r11", "r12", "r13", "r14", "r15"]

/-- Names of the 32-bit registers by number. -/
def dwordNames : Vector String 16 :=
  #v["eax", "ecx", "edx", "ebx", "esp", "ebp", "esi", "edi",
    "r8d", "r9d", "r10d", "r11d", "r12d", "r13d", "r14d", "r15d"]

/-- Names of the 16-bit registers by number. -/
def wordNames : Vector String 8 :=
  #v["ax", "cx", "dx", "bx", "sp", "bp", "si", "di"]

/-- Names of the 8-bit registers by number. -/
def byteNames : Vector String 8 :=
  #v["al", "cl", "dl", "bl", "ah", "ch", "dh", "bh"]

/-- The name in assembly text. -/
def name : Register → String
  | qword n => qwordNames[n]
  | dword n => dwordNames[n]
  | word n => wordNames[n]
  | byte n => byteNames[n]
  | rip => "rip"

/-- Every register. -/
def all : List Register :=
  (List.finRange 16).map qword ++ (List.finRange 16).map dword ++
    (List.finRange 8).map word ++ (List.finRange 8).map byte ++ [rip]

end Register

end X86Asm
