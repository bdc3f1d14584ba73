/-!
# Labels and sections as handles

A label names an address and a section names a run of the output. Both are handed out by a
program as plain numbers, in the order of their creation.
-/

namespace X86Asm

/-- A handle to a label. -/
@[ext] structure Label where
  /-- The number of the label. -/
  id : UInt32
deriving DecidableEq, Repr

/-- A label in assembly text. -/
def Label.text (l : Label) : String := "L" ++ toString l.id

/-- A handle to a section. -/
structure Section where
  /-- The number of the section. -/
  id : UInt32
deriving DecidableEq, Repr

/-- Width of the difference of two labels. -/
inductive Width where
  /-- 8 bits. -/
  | bits8
  /-- 16 bits. -/
  | bits16
  /-- 32 bits. -/
  | bits32
  /-- 64 bits. -/
  | bits64
deriving DecidableEq, Repr

namespace Width

/-- Every width, narrowest first. -/
def all : List Width := [bits8, bits16, bits32, bits64]

/-- The width in bits. -/
def bits : Width → Nat
  | bits8 => 8
  | bits16 => 16
  | bits32 => 32
  | bits64 => 64

/-- The width in bytes. -/
def bytes : Width → Nat
  | bits8 => 1
  | bits16 => 2
  | bits32 => 4
  | bits64 => 8

/-- The width of so many bits, if it is one of the four. -/
def ofBits? (n : Nat) : Option Width := all.find? (·.bits = n)

end Width

end X86Asm
