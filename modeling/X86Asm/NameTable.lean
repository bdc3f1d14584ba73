import Std.Data.TreeMap

/-!
# Name tables

A name table gives every distinct name a number, counting from zero in the order in which the
names first came up.
-/

namespace X86Asm

/-- The number of a name. -/
structure NameId where
  /-- The number. -/
  id : UInt32
deriving DecidableEq, Repr

/-- A table of distinct names. -/
structure NameTable where
  /-- The names by number. -/
  names : Array String := #[]
  /-- The numbers by name. -/
  ids : Std.TreeMap String NameId := {}

namespace NameTable

/-- The table without names. -/
def empty : NameTable := {}

instance : EmptyCollection NameTable := ⟨empty⟩

/-- The number of a name. -/
def find? (t : NameTable) (name : String) : Option NameId := t.ids[name]?

/-- The name with a number. -/
def get? (t : NameTable) (id : NameId) : Option String := t.names[id.id.toNat]?

/-- The number of a name, which is new if the name is. -/
def intern (t : NameTable) (name : String) : NameId × NameTable :=
  match t.find? name with
  | some id => (id, t)
  | none =>
    let id : NameId := ⟨UInt32.ofNat t.names.size⟩
    (id, { names := t.names.push name, ids := t.ids.insert name id })

/-- The number of names. -/
def size (t : NameTable) : Nat := t.names.size

/-- Whether there is no name. -/
def isEmpty (t : NameTable) : Bool := t.names.isEmpty

end NameTable

end X86Asm
