import X86Asm.LabelTable

/-!
# Layouts

A layout says where each node of a program goes, how many bytes it takes, and where the labels
are. Addresses and sizes are natural numbers here; that they fit their words is checked when a
layout is made.

The *slack* at a place is the padding that all gaps in front of it could take beyond what they do
take. Padding and slack of a gap add up to a constant, its capacity. So two places can never be
farther apart than they are now by more than their difference in slack, whatever happens to the
code in front of them.
-/

namespace X86Asm

/-- Limits on the making of an image. -/
structure Limits where
  /-- How many passes there may be. -/
  maxPasses : UInt64 := 64
  /-- How many bytes the output may have. -/
  maxOutputBytes : UInt64 := 0x1000000
deriving DecidableEq, Repr

/-- How many bytes a node takes. -/
structure Extent where
  /-- All bytes. -/
  length : Nat
  /-- Those that only fill a gap. -/
  padding : Nat := 0
  /-- How many could be needed to fill the gap. -/
  capacity : Nat := 0
deriving DecidableEq, Repr

/-- Where a node goes. -/
structure Placement where
  /-- The address of the first byte. -/
  address : Nat
  /-- The number of bytes. -/
  length : Nat
  /-- The number of bytes that only fill a gap. -/
  padding : Nat
  /-- The slack in front of the node. -/
  slack : Nat
deriving DecidableEq, Repr

/-- What a placement says without the address. -/
def Placement.shape (p : Placement) : Nat × Nat := (p.length, p.padding)

/-- Where a label is. -/
structure Mark where
  /-- The address. -/
  address : Nat
  /-- The slack in front of the label. -/
  slack : Nat
deriving DecidableEq, Repr

/-- Where everything is. -/
structure Layout where
  /-- The places of the nodes, in order. -/
  placements : Array Placement := #[]
  /-- The places of the labels. -/
  marks : LabelTable Mark := ∅

namespace Layout

/-- The lengths and paddings of the nodes. -/
def shapes (l : Layout) : Array (Nat × Nat) := l.placements.map Placement.shape

/-- The addresses of the labels. -/
def addresses (l : Layout) : LabelTable UInt64 := l.marks.map fun m => UInt64.ofNat m.address

end Layout

end X86Asm
