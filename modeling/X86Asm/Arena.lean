import X86Asm.Error

/-!
# Arenas

An arena keeps values in numbered slots and hands out a `NodeId` for each. A slot that is freed
is used again, the one freed last first, and its generation goes up by one, so an id from before
no longer matches: ids of values that are gone find nothing.
-/

namespace X86Asm

/-- A handle to a value in an arena: a slot, and the generation of the slot. -/
structure NodeId where
  /-- The number of the slot. -/
  index : UInt32
  /-- The generation that the slot had when the value was put in. -/
  generation : UInt32
deriving DecidableEq, Repr

/-- A slot of an arena. -/
structure Arena.Slot (α : Type) where
  /-- How often the slot was freed. -/
  generation : UInt32
  /-- The value, unless the slot is free. -/
  value : Option α
deriving Repr

/-- A pool of values that are found by their ids. -/
structure Arena (α : Type) where
  /-- The slots, free or not. -/
  slots : Array (Arena.Slot α) := #[]
  /-- The numbers of the free slots, the one freed last first. -/
  free : List UInt32 := []
  /-- The number of values. -/
  size : Nat := 0
deriving Repr

namespace Arena

variable {α : Type}

/-- The arena without slots. -/
def empty : Arena α := {}

instance : EmptyCollection (Arena α) := ⟨empty⟩

/-- Whether there is no value. -/
def isEmpty (a : Arena α) : Bool := a.size = 0

/-- The slot that an id names, if its generation is the id's. -/
def slot? (a : Arena α) (id : NodeId) : Option (Slot α) :=
  a.slots[id.index.toNat]?.filter (·.generation = id.generation)

/-- The value of an id. -/
def get? (a : Arena α) (id : NodeId) : Option α := (a.slot? id).bind (·.value)

/-- Whether the id has a value. -/
def contains (a : Arena α) (id : NodeId) : Bool := (a.get? id).isSome

/-- Puts a value in a slot, a free one if there is one, and returns its id. -/
def insert (a : Arena α) (value : α) : Except Error (NodeId × Arena α) :=
  match a.free with
  | index :: free =>
    let generation := (a.slots[index.toNat]?.map (·.generation)).getD 0
    .ok (⟨index, generation⟩,
      { a with
        slots := a.slots.modify index.toNat fun s => { s with value := some value }
        free
        size := a.size + 1 })
  | [] =>
    if a.slots.size < UInt32.size then
      .ok (⟨UInt32.ofNat a.slots.size, 0⟩,
        { a with slots := a.slots.push ⟨0, some value⟩, size := a.size + 1 })
    else .error (.handlesExhausted "nodes")

/-- Takes the value of an id out and frees its slot. -/
def erase (a : Arena α) (id : NodeId) : Option (α × Arena α) :=
  (a.get? id).map fun value =>
    (value,
      { slots := a.slots.modify id.index.toNat fun s => ⟨s.generation + 1, none⟩
        free := id.index :: a.free
        size := a.size - 1 })

/-- Changes the value of an id; an id without a value changes nothing. -/
def modify (a : Arena α) (id : NodeId) (f : α → α) : Arena α :=
  if a.contains id then
    { a with slots := a.slots.modify id.index.toNat fun s => { s with value := s.value.map f } }
  else a

/-- The number of slots, free or not. -/
def capacity (a : Arena α) : Nat := a.slots.size

end Arena

end X86Asm
