import Std.Data.TreeMap
import X86Asm.Label

/-!
# Label tables

A label table has a value for some of the labels.
-/

namespace X86Asm

/-- Values by label. -/
structure LabelTable (α : Type) where
  /-- The values by the numbers of the labels. -/
  entries : Std.TreeMap UInt32 α := ∅

namespace LabelTable

variable {α β : Type}

/-- The table without values. -/
instance : EmptyCollection (LabelTable α) := ⟨{}⟩

/-- The value of a label. -/
def find? (t : LabelTable α) (l : Label) : Option α := t.entries[l.id]?

/-- Gives a label a value, in place of any that it has. -/
def insert (t : LabelTable α) (l : Label) (value : α) : LabelTable α :=
  ⟨t.entries.insert l.id value⟩

/-- Changes all values. -/
def map (f : α → β) (t : LabelTable α) : LabelTable β := ⟨t.entries.map fun _ => f⟩

/-- A table without entries has no value for any label. -/
@[simp] theorem find?_empty (l : Label) : (∅ : LabelTable α).find? l = none :=
  Std.TreeMap.getElem?_emptyc

/-- Only the label that is given a value changes its value. -/
theorem find?_insert (t : LabelTable α) (l k : Label) (value : α) :
    (t.insert l value).find? k = if l = k then some value else t.find? k := by
  simp [find?, insert, Std.TreeMap.getElem?_insert, Label.ext_iff]

/-- Changing all values changes those that are found. -/
@[simp] theorem find?_map (f : α → β) (t : LabelTable α) (l : Label) :
    (t.map f).find? l = (t.find? l).map f := by
  simp [find?, map]

end LabelTable

end X86Asm
