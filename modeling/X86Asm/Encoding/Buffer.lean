import X86Asm.Hex

/-!
# Instruction buffers

A buffer that holds the bytes of one instruction. It has room for 16 bytes, one more than the
longest instruction has, and what does not fit is refused as a whole.
-/

namespace X86Asm

/-- Bytes of an instruction. -/
structure InstructionBuffer where
  /-- The bytes. -/
  bytes : List UInt8 := []
  /-- There is room for 16. -/
  length_le : bytes.length ≤ 16 := by decide
deriving DecidableEq

namespace InstructionBuffer

/-- How many bytes there is room for. -/
def capacity : Nat := 16

/-- What did not fit. -/
inductive Overflow where
  /-- One more byte. -/
  | byte
  /-- So many bytes, behind those that are there. -/
  | slice (present added : Nat)
deriving DecidableEq, Repr

/-- The overflow in words. -/
def Overflow.message : Overflow → String
  | byte => "InstrBytes overflow: cannot push beyond " ++ toString capacity ++ " bytes"
  | slice present added =>
    "InstrBytes overflow: " ++ toString present ++ " + " ++ toString added ++ " exceeds " ++
      toString capacity ++ "-byte capacity"

/-- The buffer without bytes. -/
def empty : InstructionBuffer := {}

/-- The number of bytes. -/
def size (b : InstructionBuffer) : Nat := b.bytes.length

/-- Whether there are no bytes. -/
def isEmpty (b : InstructionBuffer) : Bool := b.bytes.isEmpty

/-- Adds a byte at the end. -/
def push (b : InstructionBuffer) (byte : UInt8) : Except Overflow InstructionBuffer :=
  if h : (b.bytes ++ [byte]).length ≤ 16 then .ok ⟨b.bytes ++ [byte], h⟩
  else .error .byte

/-- Adds bytes at the end. -/
def append (b : InstructionBuffer) (bytes : List UInt8) : Except Overflow InstructionBuffer :=
  if h : (b.bytes ++ bytes).length ≤ 16 then .ok ⟨b.bytes ++ bytes, h⟩
  else .error (.slice b.size bytes.length)

/-- The buffer of some bytes. -/
def ofList (bytes : List UInt8) : Except Overflow InstructionBuffer := empty.append bytes

/-- Replaces the byte at an index, if there is one. -/
def set? (b : InstructionBuffer) (index : Nat) (byte : UInt8) : Option InstructionBuffer :=
  if index < b.size then
    some ⟨b.bytes.set index byte, by simpa using b.length_le⟩
  else none

/-- The bytes in diagnostics. -/
def describe (b : InstructionBuffer) : String := Hex.bracketed b.bytes

end InstructionBuffer

end X86Asm
