import X86Asm.Encoding.Encoded
import X86Asm.Layout.Alignment
import X86Asm.Layout.Basic
import X86Asm.Program.Basic

/-!
# A pass over the nodes

A pass places the nodes one behind the other. To choose between the forms of a branch it has to
know about where the target is, and the target may lie ahead. So it works with an estimate, which
is never closer to the branch than the target can be in the end:

* behind the branch, the target has its place already; it is taken to be farther away by the
  slack in between;
* ahead of the branch, the target is taken to be as far away as it was in the layout of the pass
  before, and farther by the slack in between;
* in the first pass nothing is known about a target ahead, which leaves the near form.

With such estimates a branch that is short in one pass stays short in the next.
-/

namespace X86Asm

/-- What a pass goes by. -/
structure Pass where
  /-- The program. -/
  program : Program
  /-- The address of the first node. -/
  base : Nat
  /-- How many bytes there may be. -/
  maxBytes : Nat
  /-- The layout that the pass before arrived at. -/
  previous : Option Layout

/-- A layout under way. -/
structure Walk where
  /-- What is placed. -/
  placed : Layout := {}
  /-- The address behind it. -/
  address : Nat
  /-- The slack behind it. -/
  slack : Nat := 0

namespace Walk

/-- The number of nodes that are placed. -/
def count (w : Walk) : Nat := w.placed.placements.size

/-- The labels of the walk after a node: a label that the node places is at its address. -/
def marksAfter (w : Walk) : Node → LabelTable Mark
  | .label l => w.placed.marks.insert l ⟨w.address, w.slack⟩
  | _ => w.placed.marks

/-- Places a node. -/
def place (w : Walk) (node : Node) (extent : Extent) : Walk where
  placed :=
    { placements := w.placed.placements.push ⟨w.address, extent.length, extent.padding, w.slack⟩
      marks := w.marksAfter node }
  address := w.address + extent.length
  slack := w.slack + (extent.capacity - extent.padding)

end Walk

/-- A difference, if it is not negative. -/
def exactSub? (a b : Nat) : Option Nat := if b ≤ a then some (a - b) else none

/-- A sum that is an address, if it is one. -/
def inSpace? (address : Nat) : Option Nat := if address < addressSpace then some address else none

namespace Pass

/-- What the pass before made of the node that is to be placed next. -/
def last? (pass : Pass) (w : Walk) : Option Placement :=
  pass.previous.bind (·.placements[w.count]?)

/-- The estimate of a label ahead, from where the label and the node at hand were before. -/
def estimateAhead (pass : Pass) (w : Walk) (l : Label) : Option Nat := do
  let last ← pass.last? w
  let mark ← (← pass.previous).marks.find? l
  let distance ← exactSub? mark.address last.address
  let growth ← exactSub? mark.slack last.slack
  inSpace? (w.address + distance + growth)

/-- The address at which the node that is to be placed next takes a label to be. -/
def estimate (pass : Pass) (w : Walk) (l : Label) : Option Nat :=
  match w.placed.marks.find? l with
  | some mark => exactSub? mark.address (w.slack - mark.slack)
  | none => pass.estimateAhead w l

/-- The extent of a gap up to the next multiple of an alignment. -/
def gapExtent (address : Nat) (alignment : UInt32) : Except Error Extent := do
  let aligned ← alignUp address alignment
  let padding := aligned - address
  return { length := padding, padding, capacity := alignment.toNat - 1 }

/-- The extent of an instruction: as many bytes as it takes by the estimates. -/
def instructionExtent (pass : Pass) (w : Walk) (i : Instruction) : Except Error Extent := do
  let encoded ← i.encode pass.program.mode
    { address := UInt64.ofNat w.address
      resolve := fun l => (pass.estimate w l).map UInt64.ofNat }
  return { length := encoded.bytes.length }

/-- The extent of the node that is to be placed next. -/
def extent (pass : Pass) (w : Walk) : Node → Except Error Extent
  | .instruction i => pass.instructionExtent w i
  | .label _ => .ok { length := 0 }
  | .sectionStart s => gapExtent w.address ((pass.program.sectionAlignment? s).getD 1)
  | .data payload => .ok { length := payload.size }
  | .align alignment _ => gapExtent w.address alignment
  | .address _ size => .ok { length := size.toNat }
  | .difference _ _ width => .ok { length := width.bytes }

/-- An instruction does not take more bytes than in the pass before. -/
def checkGrowth (pass : Pass) (w : Walk) (node : Node) (length : Nat) : Except Error Unit :=
  match pass.last? w with
  | none => .ok ()
  | some last =>
    if node.isInstruction && last.length < length then
      .error (.relaxationDiverged (UInt64.ofNat w.count) (UInt64.ofNat last.length)
        (UInt64.ofNat length))
    else .ok ()

/-- A node that ends in front of `address` leaves the layout within the address space and within
the limit on its size. -/
def checkEnd (pass : Pass) (index address : Nat) : Except Error Unit :=
  if addressSpace ≤ address then .error (.layoutPastEnd index)
  else if pass.maxBytes < address - pass.base then
    .error (.limitExceeded "output bytes" (UInt64.ofNat pass.maxBytes))
  else .ok ()

/-- Places the next node. -/
def step (pass : Pass) (w : Walk) (node : Node) : Except Error Walk := do
  let extent ← pass.extent w node
  pass.checkGrowth w node extent.length
  pass.checkEnd w.count (w.address + extent.length)
  return w.place node extent

/-- Places all nodes. -/
def run (pass : Pass) (nodes : List Node) : Except Error Layout :=
  (·.placed) <$> nodes.foldlM pass.step { address := pass.base }

end Pass

end X86Asm
