import X86Asm.Assembler
import X86Asm.Proofs.Workspace.Pass

/-!
# Workspaces

A workspace is an assembler that works in place: one object whose fields are written while a program
is assembled, and which is used again for the next program. The number of passes is written when a
pass begins, the labels when the layout is final, and sections and relocations one by one while the
bytes are put together. All of that may halt midway, and what has been written by then stays until
the workspace is reset.
-/

namespace X86Asm

open Guarded

/-- What an assembler that works in place holds. -/
structure Workspace where
  /-- What it may use. -/
  limits : Limits := {}
  /-- The bytes. -/
  code : List UInt8 := []
  /-- The address of the first byte. -/
  base : UInt64 := 0
  /-- The addresses of the labels, in the order of their numbers. -/
  labels : Array (Option UInt64) := #[]
  /-- The number of the first label. -/
  firstLabel : UInt32 := 0
  /-- The sections, in order. -/
  sections : List PlacedSection := []
  /-- The fields that depend on labels, in order. -/
  relocations : List Relocation := []
  /-- The number of passes that were begun. -/
  passes : Nat := 0

/-- Steps on a workspace. A step that halts leaves what has been written. -/
abbrev Work (α : Type) := EStateM Halt Workspace α

namespace Work

/-- A guarded computation, as a step that writes nothing. -/
def guarded {α : Type} : Guarded α → Work α
  | .ok a => pure a
  | .error halt => throw halt

end Work

open Work

/-! ## Filling gaps in code -/

/-- Instructions that do nothing by their lengths, up to nine bytes. -/
def nopTable : Array (List UInt8) := (Array.range 10).map longNop

/-- Instructions of `n` bytes in all that do nothing, the longest ones first. -/
def nops (n : Nat) : Guarded (List UInt8) :=
  if 0 < n then do
    let nop ← entry nopTable (min n 9)
    let rest ← nops (n - min n 9)
    return nop ++ rest
  else return []

/-- What fills a gap of `n` bytes. -/
def Filler.write (mode : Mode) (n : Nat) : Filler → Guarded (List UInt8)
  | .code => if mode.isReal then return List.replicate n 0x90 else nops n
  | .byte value => return List.replicate n value

/-! ## Sheets -/

namespace Sheet

/-- Whether a sweep has arrived at the final layout. -/
def isSettled (nodes : List Node) (previous : Option Sheet) (sheet : Sheet) : Bool :=
  match previous with
  | none => !nodes.any Node.isAddressDependent
  | some last => last.placements.map Placement.shape = sheet.placements.map Placement.shape

/-- The addresses of the labels. -/
def addresses (sheet : Sheet) : Array (Option UInt64) :=
  sheet.marks.map (Option.map fun m => UInt64.ofNat m.address)

/-- The number of bytes. -/
def total (base : UInt64) (sheet : Sheet) : Guarded Nat :=
  match sheet.placements.back? with
  | none => return 0
  | some last => do add (← sub last.address base.toNat) last.length

end Sheet

namespace Workspace

/-! ## Putting bytes together -/

/-- Looks up a label of a program in an array of addresses. -/
def lookup (p : Program) (labels : Array (Option UInt64)) (l : Label) :
    Guarded (Option UInt64) :=
  match p.labelIndex? l with
  | none => return none
  | some i => entry labels i

/-- The address of a label, which has to have one. -/
def resolve (p : Program) (l : Label) : Work UInt64 := do
  match ← guarded (lookup p (← get).labels l) with
  | some address => return address
  | none => throw (.error (p.unresolved l))

/-- Gives the last section the size up to an offset. -/
def closeLast (offset : Nat) : List PlacedSection → Guarded (List PlacedSection)
  | [] => return []
  | [s] => do
    let size ← sub offset s.offset.toNat
    return [{ s with size := UInt64.ofNat size }]
  | s :: t :: rest => do
    let rest ← closeLast offset (t :: rest)
    return s :: rest

/-- Closes the last section and adds one. -/
def addSection (offset : Nat) (s : PlacedSection) : Work Unit := do
  let sections ← guarded (closeLast offset (← get).sections)
  modify fun ws => { ws with sections := sections ++ [s] }

/-- Adds a relocation. -/
def addRelocation (r : Relocation) : Work Unit :=
  modify fun ws => { ws with relocations := ws.relocations ++ [r] }

/-- The start of a section, behind the bytes `code`. -/
def emitSection (p : Program) (place : Placement) (s : Section) (code : List UInt8) :
    Work (List UInt8) := do
  let flags := (p.sectionFlags? s).getD .none
  let filled := code ++ List.replicate place.padding flags.gapByte
  let address ← guarded (add place.address place.padding)
  addSection code.length {
    handle := s
    name := (p.sectionName? s).getD ""
    flags
    address := UInt64.ofNat address
    offset := UInt64.ofNat filled.length
    size := 0
    padding := UInt64.ofNat place.padding }
  return filled

/-- An instruction at a site. Errors name the label. -/
def writeAt (p : Program) (i : Instruction) (site : Site) : Work Encoded :=
  guarded ((i.write p.mode site).mapReport p.nameLabel)

/-- An instruction in its place, at the length that it has there. -/
def writeInPlace (p : Program) (place : Placement) (i : Instruction) : Work Encoded := do
  let site : Site := {
    address := UInt64.ofNat place.address
    lookup := lookup p (← get).labels
    strict := true }
  let first ← writeAt p i site
  if first.bytes.length < place.length then writeAt p i { site with near := true }
  else return first

/-- An instruction, behind the bytes `code`. -/
def emitInstruction (p : Program) (place : Placement) (i : Instruction) (code : List UInt8) :
    Work (List UInt8) := do
  let written ← writeInPlace p place i
  if let some f := written.fixup then
    addRelocation ⟨UInt64.ofNat (code.length + f.offset), UInt8.ofNat f.width, f.label, f.kind⟩
  return code ++ written.bytes

/-- The address of a label. -/
def emitAddress (p : Program) (l : Label) (size : UInt8) (code : List UInt8) :
    Work (List UInt8) := do
  let address ← resolve p l
  if addressFits p.mode size address then
    let bytes ← guarded (slice (littleEndian 8 address.toNat) size.toNat)
    addRelocation ⟨UInt64.ofNat code.length, size, l, .absolute⟩
    return code ++ bytes
  else throw (.error (.displacementOutOfRange l.id address.toInt64 size))

/-- The difference of two labels. -/
def emitDifference (p : Program) (l relativeTo : Label) (width : Width) (code : List UInt8) :
    Work (List UInt8) := do
  let address ← resolve p l
  let origin ← resolve p relativeTo
  let bytes ← guarded (slice (littleEndian 8 (address - origin).toNat) width.bytes)
  addRelocation ⟨UInt64.ofNat code.length, UInt8.ofNat width.bytes, l, .relative⟩
  return code ++ bytes

/-- A node, whatever its length. -/
def emitContent (p : Program) (place : Placement) (node : Node) (code : List UInt8) :
    Work (List UInt8) :=
  match node with
  | .instruction i => emitInstruction p place i code
  | .label _ => return code
  | .sectionStart s => emitSection p place s code
  | .data payload => return code ++ payload.bytes
  | .align _ filler => do return code ++ (← guarded (filler.write p.mode place.padding))
  | .address l size => emitAddress p l size code
  | .difference l relativeTo width => emitDifference p l relativeTo width code

/-- The node at an index. It has to be as long as the layout has it. -/
def emitNode (p : Program) (index : Nat) (place : Placement) (node : Node) (code : List UInt8) :
    Work (List UInt8) := do
  let code' ← emitContent p place node code
  let length ← guarded (sub code'.length code.length)
  if length = place.length then return code'
  else
    throw (.error (.relaxationDiverged (UInt64.ofNat index) (UInt64.ofNat place.length)
      (UInt64.ofNat length)))

/-- Nodes at their places, the first of which has the index `index`. -/
def emitNodes (p : Program) :
    (index : Nat) → List (Node × Placement) → (code : List UInt8) → Work (List UInt8)
  | _, [], code => return code
  | index, (node, place) :: rest, code => do
    emitNodes p (index + 1) rest (← emitNode p index place node code)

/-- The bytes are all there, and the last section ends with them. -/
def finish (code : List UInt8) : Work Unit := do
  let sections ← guarded (closeLast code.length (← get).sections)
  modify fun ws => { ws with sections, code }

/-- All nodes of a program. -/
def emit (p : Program) (sheet : Sheet) : Work Unit := do
  let _ ← guarded (sheet.total (← get).base)
  finish (← emitNodes p 0 (p.nodeList.zip sheet.placements.toList) [])

/-! ## Assembling -/

/-- Makes up to `fuel` sweeps after `begun` sweeps. -/
def relaxFrom (p : Program) : (fuel begun : Nat) → (previous : Option Sheet) → Work Sheet
  | 0, _, _ => do throw (.error (.relaxationLimit (← get).limits.maxPasses))
  | fuel + 1, begun, previous => do
    modify fun ws => { ws with passes := begun + 1 }
    let ws ← get
    let sheet ← guarded
      (Sweep.run ⟨p, ws.base.toNat, ws.limits.maxOutputBytes.toNat, previous⟩ p.nodeList)
    if Sheet.isSettled p.nodeList previous sheet then return sheet
    else relaxFrom p fuel (begun + 1) (some sheet)

/-- The whole way from a program to its bytes. -/
def run (p : Program) : Work Unit := do
  guarded (embed p.checkBound)
  let sheet ← relaxFrom p (← get).limits.maxPasses.toNat 0 none
  modify fun ws => { ws with labels := sheet.addresses, firstLabel := p.firstLabel }
  emit p sheet

/-- A workspace that nothing has been written to. -/
def withLimits (limits : Limits) : Workspace := { limits }

/-- Clears everything but the limits. -/
def reset (ws : Workspace) : Workspace := withLimits ws.limits

/-- Assembles a program at a base address. When an error is reported, everything but the number of
passes is cleared. -/
def assemble (ws : Workspace) (p : Program) (base : UInt64) : Except Halt Unit × Workspace :=
  match (run p).run { ws.reset with base } with
  | .ok () ws => (.ok (), ws)
  | .error (.error e) ws => (.error (.error e), { ws.reset with passes := ws.passes })
  | .error (.fault f) ws => (.error (.fault f), ws)

/-! ## What can be asked of a workspace -/

/-- The address of a label. -/
def labelAddress? (ws : Workspace) (l : Label) : Option UInt64 :=
  if ws.firstLabel ≤ l.id then ws.labels[l.id.toNat - ws.firstLabel.toNat]?.join else none

/-- Nothing of a program is left. -/
structure IsClear (ws : Workspace) : Prop where
  code_eq : ws.code = []
  base_eq : ws.base = 0
  label_eq : ∀ l, ws.labelAddress? l = none
  sections_eq : ws.sections = []
  relocations_eq : ws.relocations = []

/-- Nothing is left after a reset. -/
theorem isClear_reset (ws : Workspace) (passes : Nat) : { ws.reset with passes }.IsClear where
  code_eq := rfl
  base_eq := rfl
  label_eq _ := ite_self none
  sections_eq := rfl
  relocations_eq := rfl

/-- Hands the bytes over. Everything else stays. -/
def takeCode (ws : Workspace) : List UInt8 × Workspace := (ws.code, { ws with code := [] })

end Workspace

end X86Asm
