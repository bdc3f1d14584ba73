import X86Asm.Encoding.Fields
import X86Asm.LabelTable
import X86Asm.SectionFlags

/-!
# Images

An image is a program in machine code: the bytes, and tables that say what they are. The section
table tells which part of the bytes belongs to which section, and the relocation table which
fields would have to be changed if the image, or what it refers to, came to another address.
-/

namespace X86Asm

/-- A section of an image. -/
structure PlacedSection where
  /-- The section. -/
  handle : Section
  /-- The name. -/
  name : String
  /-- The attributes. -/
  flags : SectionFlags
  /-- The address of the first byte. -/
  address : UInt64
  /-- The offset of the first byte. -/
  offset : UInt64
  /-- The number of bytes up to the next gap or the end. -/
  size : UInt64
  /-- The number of bytes that fill the gap in front. -/
  padding : UInt64
deriving DecidableEq, Repr

/-- A field of an image that depends on a label. -/
structure Relocation where
  /-- The offset of the field. -/
  offset : UInt64
  /-- The width in bytes. -/
  size : UInt8
  /-- The label. -/
  label : Label
  /-- How the value follows from the address of the label. -/
  kind : FixupKind
deriving DecidableEq, Repr

/-- A program in machine code. -/
structure Image where
  /-- The address of the first byte. -/
  base : UInt64 := 0
  /-- The bytes. -/
  code : List UInt8 := []
  /-- The addresses of the labels. -/
  labels : LabelTable UInt64 := ∅
  /-- The sections, in order. -/
  sections : List PlacedSection := []
  /-- The fields that depend on labels, in order. -/
  relocations : List Relocation := []

namespace Image

/-- The image of nothing. -/
def empty : Image := {}

/-- The number of bytes. -/
def size (i : Image) : Nat := i.code.length

end Image

end X86Asm
