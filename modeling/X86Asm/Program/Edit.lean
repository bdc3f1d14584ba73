import X86Asm.Program.Basic

/-!
# Editing programs

Every operation returns its result, or why it is refused, together with the program as it is
afterwards. Checks come first: a node is looked at before a slot is taken for it, so an operation
that is refused leaves the program alone.

A new node goes in at the insertion point, which then stands behind it, except that an insertion
point at the tail stays at the tail. Inserting beside a node does not move the insertion point.
Removing the node in front of the insertion point leaves it where the node was.
-/

namespace X86Asm

namespace Program

/-- The outcome of an operation that may be refused, and the program after it. -/
abbrev Edit (α : Type) := Program → Except Error α × Program

/-! ## Labels and sections -/

/-- The number that follows `count` numbers from `first` on. The greatest number stays unused. -/
def nextHandle (first : UInt32) (count : Nat) (resource : String) : Except Error UInt32 :=
  if first.toNat + count < 0xFFFFFFFF then .ok (first + UInt32.ofNat count)
  else .error (.handlesExhausted resource)

/-- Adds a label whose name is in the table already. -/
def pushLabel (name : Option NameId) : Edit Label := fun p =>
  match nextHandle p.firstLabel p.labels.size "labels" with
  | .error e => (.error e, p)
  | .ok id => (.ok ⟨id⟩, { p with labels := p.labels.push { name } })

/-- Creates a label. -/
def createLabel : Edit Label := pushLabel none

/-- Creates a label with a name. -/
def createNamedLabel (name : String) : Edit Label := fun p =>
  let (id, names) := p.names.intern name
  pushLabel (some id) { p with names }

/-- Whether a number is a power of two. -/
def isPowerOfTwo (n : UInt32) : Bool := n.toNat = Nat.pow 2 n.toNat.log2

/-- Creates a section, whose alignment has to be a power of two. -/
def createSection (name : String) (flags : SectionFlags) (alignment : UInt32) : Edit Section :=
  fun p =>
    if isPowerOfTwo alignment then
      match nextHandle p.firstSection p.sections.size "sections" with
      | .error e => (.error e, p)
      | .ok id =>
        let (name, names) := p.names.intern name
        (.ok ⟨id⟩, { p with sections := p.sections.push { name, flags, alignment }, names })
    else (.error (.unevenSectionAlignment alignment), p)

/-! ## Which nodes are taken -/

/-- A label or section that is to be placed is not placed yet. -/
def checkUnbound (what : String) (id : UInt32) (node : Option NodeId) : Except Error Unit :=
  match node with
  | none => .ok ()
  | some _ => .error (.alreadyBound what id)

/-- The labels that a node refers to belong to the program. -/
def checkReferences (p : Program) (node : Node) : Except Error Unit :=
  node.references.forM fun l => if p.ownsLabel l then .ok () else .error (.invalidLabel l.id)

/-- What a node places can be placed, and its parameters are within their domains. -/
def checkContent (p : Program) : Node → Except Error Unit
  | .label l =>
    match p.label? l with
    | none => .error (.invalidLabel l.id)
    | some entry => checkUnbound "label" l.id entry.node
  | .sectionStart s =>
    match p.section? s with
    | none => .error (.invalidSection s.id)
    | some entry => checkUnbound "section" s.id entry.node
  | .align alignment _ =>
    if isPowerOfTwo alignment then .ok () else .error (.unevenAlignment alignment)
  | .address _ size => if size ∈ [2, 4, 8] then .ok () else .error (.oddAddressWidth size)
  | .instruction _ | .data _ | .difference .. => .ok ()

/-- The program takes the node. -/
def check (p : Program) (node : Node) : Except Error Unit := do
  p.checkReferences node
  p.checkContent node

/-! ## Links -/

/-- Sets what follows a node, or the first node if there is none before. -/
def setNext (p : Program) (prev next : Option NodeId) : Program :=
  match prev with
  | some id => { p with nodes := p.nodes.modify id fun e => { e with next } }
  | none => { p with head := next }

/-- Sets what precedes a node, or the last node if there is none after. -/
def setPrev (p : Program) (next prev : Option NodeId) : Program :=
  match next with
  | some id => { p with nodes := p.nodes.modify id fun e => { e with prev } }
  | none => { p with tail := prev }

/-- The id of what follows a node, or of the first node if there is none before. -/
def follower (p : Program) (prev : Option NodeId) : Option NodeId :=
  match prev with
  | some id => p.next? id
  | none => p.head

/-- Records that a node places a label or a section, or that no node does. -/
def setPlace (p : Program) (node : Node) (place : Option NodeId) : Program :=
  match node with
  | .label l =>
    match p.labelIndex? l with
    | some i => { p with labels := p.labels.modify i fun e => { e with node := place } }
    | none => p
  | .sectionStart s =>
    match p.sectionIndex? s with
    | some i => { p with sections := p.sections.modify i fun e => { e with node := place } }
    | none => p
  | _ => p

/-- Puts a node between `prev` and what follows it. -/
def link (prev : Option NodeId) (node : Node) : Edit NodeId := fun p =>
  match p.check node with
  | .error e => (.error e, p)
  | .ok () =>
    let next := p.follower prev
    match p.nodes.insert { node, prev, next } with
    | .error e => (.error e, p)
    | .ok (id, nodes) =>
      (.ok id, (({ p with nodes }.setNext prev (some id)).setPrev next (some id)).setPlace node
        (some id))

/-! ## Nodes -/

/-- Puts a node directly behind a node. -/
def insertAfter (position : NodeId) (node : Node) : Edit NodeId := fun p =>
  if p.nodes.contains position then link (some position) node p else (.error .invalidNode, p)

/-- Puts a node directly in front of a node. -/
def insertBefore (position : NodeId) (node : Node) : Edit NodeId := fun p =>
  match p.nodes.get? position with
  | some entry => link entry.prev node p
  | none => (.error .invalidNode, p)

/-- Moves the insertion point behind a node if there is one to be behind of. -/
def moveBehind (outcome : Except Error NodeId × Program) : Except Error NodeId × Program :=
  match outcome with
  | (.ok id, p) => (.ok id, { p with insertion := .after id })
  | (.error e, p) => (.error e, p)

/-- Puts a node in at the insertion point. -/
def emit (node : Node) : Edit NodeId := fun p =>
  match p.insertion with
  | .tail => link p.tail node p
  | .front => moveBehind (link none node p)
  | .after id => moveBehind (insertAfter id node p)

/-- Places a label at the insertion point. -/
def bindLabel (l : Label) : Edit NodeId := emit (.label l)

/-- Starts a section at the insertion point. -/
def bindSection (s : Section) : Edit NodeId := emit (.sectionStart s)

/-- Binding a label is emitting the node that places it. -/
theorem bindLabel_eq_emit (l : Label) : bindLabel l = emit (.label l) := rfl

/-- Binding a section is emitting the node that starts it. -/
theorem bindSection_eq_emit (s : Section) : bindSection s = emit (.sectionStart s) := rfl

/-- Puts the address of a label in at the insertion point, as wide as addresses of the mode are. -/
def emitAddress (l : Label) : Edit NodeId := fun p =>
  emit (.address l (UInt8.ofNat p.mode.pointerBytes)) p

/-- Sets the insertion point behind a node, or at the tail. -/
def setCursor (position : Option NodeId) : Edit Unit := fun p =>
  match position with
  | none => (.ok (), { p with insertion := .tail })
  | some id =>
    if p.nodes.contains id then (.ok (), { p with insertion := .after id })
    else (.error .invalidNode, p)

/-- The insertion point after the node `id` behind `prev` is gone. -/
def InsertionPoint.without (point : InsertionPoint) (id : NodeId) (prev : Option NodeId) :
    InsertionPoint :=
  if point = .after id then prev.elim .front .after else point

/-- Takes a node out. What it placed is unbound afterwards. -/
def erase (id : NodeId) : Edit Node := fun p =>
  match p.nodes.erase id with
  | none => (.error .invalidNode, p)
  | some (entry, nodes) =>
    let p := { p with nodes, insertion := p.insertion.without id entry.prev }
    (.ok entry.node,
      ((p.setNext entry.prev entry.next).setPrev entry.next entry.prev).setPlace entry.node none)

/-- Drops nodes, labels, sections and names. The numbers of labels and sections go on from where
they were. -/
def clear (p : Program) : Program :=
  { empty p.mode with
    firstLabel := UInt32.ofNat (min (p.firstLabel.toNat + p.labels.size) 0xFFFFFFFF)
    firstSection := UInt32.ofNat (min (p.firstSection.toNat + p.sections.size) 0xFFFFFFFF) }

end Program

end X86Asm
