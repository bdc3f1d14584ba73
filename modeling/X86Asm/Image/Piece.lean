import X86Asm.Image.Basic
import X86Asm.Image.Padding
import X86Asm.Layout.Basic
import X86Asm.Encoding.Encoded
import X86Asm.Program.Basic

/-!
# The part of an image that comes from one node

Once a layout is final every node can be turned into bytes by itself. An instruction keeps the
length that the layout gave it: a branch that the layout took to be near stays near, even if the
target turned out to be within reach of the short form.
-/

namespace X86Asm

/-- What a node adds to an image. -/
structure Piece where
  /-- The bytes. -/
  bytes : List UInt8
  /-- The field that depends on a label. -/
  relocation : Option Relocation := none
  /-- The section that starts behind the bytes. Its size is not known yet and is zero. -/
  opened : Option PlacedSection := none
deriving DecidableEq, Repr

/-- A final layout of a program, ready to be turned into bytes. -/
structure Blueprint where
  /-- The program. -/
  program : Program
  /-- The address of the first node. -/
  base : UInt64
  /-- The addresses of the labels. -/
  addresses : LabelTable UInt64

/-- The error about a label that no node places. -/
def Program.unresolved (p : Program) (l : Label) : Error := .unresolvedLabel l.id (p.labelName? l)

/-- Adds the name of the label to an error about a label without an address. -/
def Program.nameLabel (p : Program) : Error → Error
  | .unresolvedLabel id none => p.unresolved ⟨id⟩
  | e => e

/-- Whether an address can be stored in so many bytes. In long mode four bytes may stand for a
zero-extended or for a sign-extended address. -/
def addressFits (mode : Mode) (size : UInt8) (address : UInt64) : Bool :=
  if size = 8 then true
  else if size = 4 then
    address ≤ 0xFFFFFFFF || (mode.isLong && 0xFFFFFFFF80000000 ≤ address)
  else address ≤ 0xFFFF

namespace Blueprint

/-- The offset of a place from the start of the image. -/
def offset (b : Blueprint) (place : Placement) : Nat := place.address - b.base.toNat

/-- The address of a label. -/
def resolve (b : Blueprint) (l : Label) : Except Error UInt64 :=
  match b.addresses.find? l with
  | some address => .ok address
  | none => .error (b.program.unresolved l)

/-- The context of an instruction, in which everything has to be right. -/
def context (b : Blueprint) (place : Placement) : Context where
  address := UInt64.ofNat place.address
  resolve := b.addresses.find?
  strict := true

/-- An instruction in a context. Errors name the label. -/
def encode (b : Blueprint) (i : Instruction) (ctx : Context) : Except Error Encoded :=
  (i.encode b.program.mode ctx).mapError b.program.nameLabel

/-- An instruction in its place, at the length that it has there. -/
def encodeAt (b : Blueprint) (place : Placement) (i : Instruction) : Except Error Encoded := do
  let encoded ← b.encode i (b.context place)
  if encoded.bytes.length < place.length then b.encode i { b.context place with near := true }
  else return encoded

/-- What an instruction adds. -/
def instructionPiece (b : Blueprint) (place : Placement) (i : Instruction) :
    Except Error Piece := do
  let encoded ← b.encodeAt place i
  return {
    bytes := encoded.bytes
    relocation := encoded.fixup.map fun f =>
      ⟨UInt64.ofNat (b.offset place + f.offset), UInt8.ofNat f.width, f.label, f.kind⟩ }

/-- What the start of a section adds. -/
def sectionPiece (b : Blueprint) (place : Placement) (s : Section) : Piece :=
  let flags := (b.program.sectionFlags? s).getD .none
  { bytes := List.replicate place.padding flags.gapByte
    opened := some {
      handle := s
      name := (b.program.sectionName? s).getD ""
      flags
      address := UInt64.ofNat (place.address + place.padding)
      offset := UInt64.ofNat (b.offset place + place.padding)
      size := 0
      padding := UInt64.ofNat place.padding } }

/-- What the address of a label adds. -/
def addressPiece (b : Blueprint) (place : Placement) (l : Label) (size : UInt8) :
    Except Error Piece := do
  let address ← b.resolve l
  if addressFits b.program.mode size address then
    return {
      bytes := littleEndian size.toNat address.toNat
      relocation := some ⟨UInt64.ofNat (b.offset place), size, l, .absolute⟩ }
  else .error (.displacementOutOfRange l.id address.toInt64 size)

/-- What the difference of two labels adds. It is cut off to its width. -/
def differencePiece (b : Blueprint) (place : Placement) (l relativeTo : Label) (width : Width) :
    Except Error Piece := do
  let address ← b.resolve l
  let origin ← b.resolve relativeTo
  return {
    bytes := littleEndian width.bytes (address - origin).toNat
    relocation :=
      some ⟨UInt64.ofNat (b.offset place), UInt8.ofNat width.bytes, l, .relative⟩ }

/-- What a node adds, whatever its length. -/
def pieceOf (b : Blueprint) (place : Placement) : Node → Except Error Piece
  | .instruction i => b.instructionPiece place i
  | .label _ => .ok { bytes := [] }
  | .sectionStart s => .ok (b.sectionPiece place s)
  | .data payload => .ok { bytes := payload.bytes }
  | .align _ filler => .ok { bytes := filler.bytes b.program.mode place.padding }
  | .address l size => b.addressPiece place l size
  | .difference l relativeTo width => b.differencePiece place l relativeTo width

/-- What the node at an index adds. It has to be as long as the layout has it. -/
def piece (b : Blueprint) (index : Nat) (place : Placement) (node : Node) : Except Error Piece := do
  let piece ← b.pieceOf place node
  if piece.bytes.length = place.length then return piece
  else
    .error (.relaxationDiverged (UInt64.ofNat index) (UInt64.ofNat place.length)
      (UInt64.ofNat piece.bytes.length))

end Blueprint

end X86Asm
