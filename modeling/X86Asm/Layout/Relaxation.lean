import X86Asm.Layout.Pass

/-!
# Relaxation

Passes are made until one arrives at the layout of the one before. The first pass takes every
branch to a label ahead to be near. Each later one has better estimates, so branches become short
until no more can.

A program whose bytes do not depend on labels takes one pass.
-/

namespace X86Asm

namespace Program

/-- Whether a pass has arrived at the final layout. All addresses follow from the lengths, so
equal lengths and paddings are enough. -/
def isSettled (nodes : List Node) (previous : Option Layout) (layout : Layout) : Bool :=
  match previous with
  | none => !nodes.any Node.isAddressDependent
  | some last => last.shapes = layout.shapes

/-- Makes up to `fuel` passes after `begun` passes. Returns the layout that the last one arrived
at, and the number of passes that were begun in all. -/
def relaxFrom (p : Program) (base : UInt64) (limits : Limits) (nodes : List Node) :
    (fuel begun : Nat) → (previous : Option Layout) → Except Error Layout × Nat
  | 0, begun, _ => (.error (.relaxationLimit limits.maxPasses), begun)
  | fuel + 1, begun, previous =>
    match Pass.run ⟨p, base.toNat, limits.maxOutputBytes.toNat, previous⟩ nodes with
    | .error e => (.error e, begun + 1)
    | .ok layout =>
      if isSettled nodes previous layout then (.ok layout, begun + 1)
      else p.relaxFrom base limits nodes fuel (begun + 1) (some layout)

/-- The layout of a program at a base address, and the number of passes that it took. -/
def relax (p : Program) (base : UInt64) (limits : Limits) : Except Error Layout × Nat :=
  p.relaxFrom base limits p.nodeList limits.maxPasses.toNat 0 none

end Program

end X86Asm
