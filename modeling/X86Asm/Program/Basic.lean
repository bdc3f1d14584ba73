import X86Asm.Arena
import X86Asm.NameTable
import X86Asm.Node

/-!
# Programs

A program is a sequence of nodes that can be edited in any place, together with the labels and
sections that its nodes may mention. The nodes are kept in an arena and linked to their
neighbours, so an edit touches the neighbours only and a `NodeId` stays good until its node is
removed. New nodes go in at an insertion point.

Labels and sections are numbered without gaps, labels from `firstLabel` on and sections from
`firstSection` on; clearing a program moves both up, so that no number is used twice. A label or
a section is bound while a node of the program places it. Their names share one table.

This file has the types and what can be asked of a program; `Program.toList` is the sequence.
`X86Asm.Program.Edit` has the operations that change it.
-/

namespace X86Asm

namespace Program

/-- A node with its neighbours. -/
structure Entry where
  /-- The node. -/
  node : Node
  /-- The node before it. -/
  prev : Option NodeId := none
  /-- The node after it. -/
  next : Option NodeId := none
deriving DecidableEq, Repr

/-- What a program knows about a label. -/
structure LabelEntry where
  /-- The name it was created with. -/
  name : Option NameId
  /-- The node that places it. -/
  node : Option NodeId := none
deriving DecidableEq, Repr

/-- What a program knows about a section. -/
structure SectionEntry where
  /-- The name. -/
  name : NameId
  /-- The attributes. -/
  flags : SectionFlags
  /-- The power of two that the address is a multiple of. -/
  alignment : UInt32
  /-- The node that starts it. -/
  node : Option NodeId := none
deriving DecidableEq, Repr

/-- Where the next new node goes. -/
inductive InsertionPoint where
  /-- Behind the last node, also when nodes are added there by other means. -/
  | tail
  /-- In front of the first node. -/
  | front
  /-- Behind a node. -/
  | after (id : NodeId)
deriving DecidableEq, Repr

end Program

/-- A sequence of nodes with its labels and sections. -/
structure Program where
  /-- The mode that the program is assembled for. -/
  mode : Mode
  /-- The nodes, linked to their neighbours. -/
  nodes : Arena Program.Entry := ∅
  /-- The first node. -/
  head : Option NodeId := none
  /-- The last node. -/
  tail : Option NodeId := none
  /-- Where the next new node goes. -/
  insertion : Program.InsertionPoint := .tail
  /-- The labels, in the order of their numbers. -/
  labels : Array Program.LabelEntry := #[]
  /-- The sections, in the order of their numbers. -/
  sections : Array Program.SectionEntry := #[]
  /-- The names of labels and sections. -/
  names : NameTable := ∅
  /-- The number of the first label. -/
  firstLabel : UInt32 := 0
  /-- The number of the first section. -/
  firstSection : UInt32 := 0

namespace Program

/-- The program without nodes. -/
def empty (mode : Mode) : Program := { mode }

/-! ## The sequence -/

/-- The nodes from `start` on. As no node comes twice, there are at most `fuel` of them if that
many values fit in the arena. -/
def walk (nodes : Arena Entry) : (fuel : Nat) → (start : Option NodeId) → List (NodeId × Node)
  | 0, _ | _, none => []
  | fuel + 1, some id =>
    match nodes.get? id with
    | none => []
    | some entry => (id, entry.node) :: walk nodes fuel entry.next

/-- The nodes with their ids, from first to last. -/
def toList (p : Program) : List (NodeId × Node) := walk p.nodes p.nodes.capacity p.head

/-- The nodes, from first to last. -/
def nodeList (p : Program) : List Node := p.toList.map (·.2)

/-- The node with an id, unless the id is stale. -/
def node? (p : Program) (id : NodeId) : Option Node := (p.nodes.get? id).map (·.node)

/-- The id of the node behind a node. -/
def next? (p : Program) (id : NodeId) : Option NodeId := (p.nodes.get? id).bind (·.next)

/-- The id of the node in front of a node. -/
def prev? (p : Program) (id : NodeId) : Option NodeId := (p.nodes.get? id).bind (·.prev)

/-- The number of nodes. -/
def size (p : Program) : Nat := p.nodes.size

/-- The node behind which the next one goes; none if that place is an end of the program. -/
def cursor? (p : Program) : Option NodeId :=
  match p.insertion with
  | .after id => some id
  | .tail | .front => none

/-! ## Labels -/

/-- The place of a label among the labels of the program. -/
def labelIndex? (p : Program) (l : Label) : Option Nat :=
  if p.firstLabel ≤ l.id ∧ l.id.toNat - p.firstLabel.toNat < p.labels.size then
    some (l.id.toNat - p.firstLabel.toNat)
  else none

/-- What is known about a label. -/
def label? (p : Program) (l : Label) : Option LabelEntry :=
  (p.labelIndex? l).bind (p.labels[·]?)

/-- Whether the label was issued by this program since it was last cleared. -/
def ownsLabel (p : Program) (l : Label) : Bool := (p.labelIndex? l).isSome

/-- The name that a label was created with. -/
def labelName? (p : Program) (l : Label) : Option String :=
  ((p.label? l).bind (·.name)).bind p.names.get?

/-- The node that places a label. -/
def labelNode? (p : Program) (l : Label) : Option NodeId := (p.label? l).bind (·.node)

/-- Whether a node places the label. -/
def isBound (p : Program) (l : Label) : Bool := (p.labelNode? l).isSome

/-- The first label that was created with a name. -/
def findLabel? (p : Program) (name : String) : Option Label := do
  let id ← p.names.find? name
  let index ← p.labels.findIdx? (·.name = some id)
  return ⟨p.firstLabel + UInt32.ofNat index⟩

/-! ## Sections -/

/-- The place of a section among the sections of the program. -/
def sectionIndex? (p : Program) (s : Section) : Option Nat :=
  if p.firstSection ≤ s.id ∧ s.id.toNat - p.firstSection.toNat < p.sections.size then
    some (s.id.toNat - p.firstSection.toNat)
  else none

/-- What is known about a section. -/
def section? (p : Program) (s : Section) : Option SectionEntry :=
  (p.sectionIndex? s).bind (p.sections[·]?)

/-- The name of a section. -/
def sectionName? (p : Program) (s : Section) : Option String :=
  (p.section? s).bind fun e => p.names.get? e.name

/-- The attributes of a section. -/
def sectionFlags? (p : Program) (s : Section) : Option SectionFlags := (p.section? s).map (·.flags)

/-- The alignment of a section. -/
def sectionAlignment? (p : Program) (s : Section) : Option UInt32 :=
  (p.section? s).map (·.alignment)

/-- The node that starts a section. -/
def sectionNode? (p : Program) (s : Section) : Option NodeId := (p.section? s).bind (·.node)

/-- The sections that nodes start, in the order of the nodes. -/
def boundSections (p : Program) : List Section :=
  p.nodeList.filterMap fun
    | .sectionStart s => some s
    | _ => none

/-- The place of a bound section among those that nodes start. -/
def sectionPosition? (p : Program) (s : Section) : Option Nat :=
  if (p.sectionNode? s).isSome then p.boundSections.idxOf? s else none

end Program

end X86Asm
