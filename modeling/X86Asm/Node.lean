import X86Asm.Instruction
import X86Asm.Payload
import X86Asm.SectionFlags

/-!
# Nodes

The elements that a program is a sequence of. Labels and sections are placed by nodes of their
own, which take no bytes except for the gap in front of a section.
-/

namespace X86Asm

/-- What fills the gap of an alignment directive. -/
inductive Filler where
  /-- Instructions that do nothing. -/
  | code
  /-- A byte, repeated. -/
  | byte (value : UInt8)
deriving DecidableEq, Repr

/-- An element of a program. -/
inductive Node where
  /-- An instruction. -/
  | instruction (i : Instruction)
  /-- Places a label at the next byte. -/
  | label (l : Label)
  /-- Starts a section at the next multiple of its alignment. -/
  | sectionStart (s : Section)
  /-- Bytes. -/
  | data (payload : Payload)
  /-- Goes on to the next multiple of an alignment. -/
  | align (alignment : UInt32) (filler : Filler)
  /-- The address of a label in `size` bytes. -/
  | address (l : Label) (size : UInt8)
  /-- The address of a label less that of another. -/
  | difference (l relativeTo : Label) (width : Width)
deriving DecidableEq, Repr

namespace Node

/-- The labels that the node refers to, which does not include the one that it places. Of an
instruction only the first counts. -/
def references : Node → List Label
  | instruction i => i.label?.toList
  | address l _ => [l]
  | difference l relativeTo _ => [l, relativeTo]
  | label _ | sectionStart _ | data _ | align .. => []

/-- Whether the bytes depend on the address of a label. -/
def isAddressDependent (n : Node) : Bool := !n.references.isEmpty

/-- Whether the node places a label or a section. -/
def isMarker : Node → Bool
  | label _ | sectionStart _ => true
  | _ => false

/-- Whether the node is an instruction. -/
def isInstruction : Node → Bool
  | instruction _ => true
  | _ => false

end Node

end X86Asm
