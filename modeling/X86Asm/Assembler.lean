import X86Asm.Image.Assembly

/-!
# Assemblers

An assembler makes images within its limits and keeps the last one. After a failure it keeps the
empty image, so what it shows never belongs to another program than the one it was given last.
-/

namespace X86Asm

/-- An assembler with what it made last. -/
structure Assembler where
  /-- What it may use. -/
  limits : Limits := {}
  /-- The last image. -/
  image : Image := .empty
  /-- The number of passes that were begun for it. -/
  passes : Nat := 0

namespace Assembler

/-- An assembler that has made nothing. -/
def withLimits (limits : Limits) : Assembler := { limits }

/-- Makes the image of a program at a base address. -/
def assemble (a : Assembler) (p : Program) (base : UInt64) : Except Error Unit × Assembler :=
  match p.assemble base a.limits with
  | (.ok image, passes) => (.ok (), { a with image, passes })
  | (.error e, passes) => (.error e, { a with image := .empty, passes })

/-- The address of a label in the last image. -/
def labelAddress? (a : Assembler) (l : Label) : Option UInt64 := a.image.labels.find? l

/-- Hands the bytes over. Everything else stays. -/
def takeCode (a : Assembler) : List UInt8 × Assembler :=
  (a.image.code, { a with image := { a.image with code := [] } })

end Assembler

/-- The bytes of a program at a base address, within the usual limits. -/
def Program.machineCode (p : Program) (base : UInt64) : Except Error (List UInt8) :=
  (·.code) <$> (p.assemble base {}).1

end X86Asm
