import X86Asm.Image.Piece
import X86Asm.Layout.Relaxation

/-!
# From a program to its image

`Program.assemble` is the whole way: every label that is referred to has to have a place, then the
program is laid out, and then the pieces of its nodes are put together.
-/

namespace X86Asm

namespace Blueprint

/-- The pieces of nodes at their places, the first of which has the index `index`. -/
def pieces (b : Blueprint) : (index : Nat) → List (Node × Placement) → Except Error (List Piece)
  | _, [] => .ok []
  | index, (node, place) :: rest => do
    let piece ← b.piece index place node
    return piece :: (← b.pieces (index + 1) rest)

end Blueprint

/-- Gives each section the size up to the gap in front of the next one, and the last one the size
up to the end. -/
def closeSections (total : UInt64) : List PlacedSection → List PlacedSection
  | [] => []
  | [s] => [{ s with size := total - s.offset }]
  | s :: t :: rest =>
    { s with size := t.offset - t.padding - s.offset } :: closeSections total (t :: rest)

/-- Puts pieces together. -/
def Image.ofPieces (b : Blueprint) (pieces : List Piece) : Image :=
  let code := pieces.flatMap (·.bytes)
  { base := b.base
    code
    labels := b.addresses
    sections := closeSections (UInt64.ofNat code.length) (pieces.filterMap (·.opened))
    relocations := pieces.filterMap (·.relocation) }

namespace Program

/-- Every label that a node refers to is bound. -/
def checkBound (p : Program) : Except Error Unit :=
  (p.nodeList.flatMap Node.references).forM fun l =>
    if p.isBound l then .ok () else .error (p.unresolved l)

/-- The image of a program that is laid out. -/
def render (p : Program) (base : UInt64) (layout : Layout) : Except Error Image := do
  let b : Blueprint := ⟨p, base, layout.addresses⟩
  let pieces ← b.pieces 0 (p.nodeList.zip layout.placements.toList)
  return .ofPieces b pieces

/-- The image of a program at a base address, and the number of passes that the layout took. -/
def assemble (p : Program) (base : UInt64) (limits : Limits) : Except Error Image × Nat :=
  match p.checkBound with
  | .error e => (.error e, 0)
  | .ok () =>
    let (layout, passes) := p.relax base limits
    (layout >>= p.render base, passes)

end Program

end X86Asm
