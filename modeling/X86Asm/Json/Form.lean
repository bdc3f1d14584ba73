import X86Asm.Json.Reader
import X86Asm.Json.Writer

/-!
# JSON forms

The JSON form of a type: how its values are written as documents, and which documents are read as
values. Everything else is refused.

* A *record* is written as an object with its fields in a fixed order. It is read from an object
  with these fields in any order, each at most once, and others beside them; or from an array of
  exactly its fields in order.
* A *variant* without content is written as its name, and one with content as an object with one
  member. One without content may also be read from an object that has `null` as its content.
* A field that may be absent is written as `null`, and read from `null` or if it is missing.
-/

namespace X86Asm

/-- Types whose values have a JSON form. -/
class JsonForm (α : Type) where
  /-- The document of a value. -/
  toJson : α → Json
  /-- The value of a document. -/
  ofJson? : Json → Option α

export JsonForm (toJson ofJson?)

namespace JsonForm

variable {α : Type} [JsonForm α]

/-- The text of the document of a value. -/
def write (a : α) : String := (toJson a).text

/-- The value that a text is the document of. -/
def read? (s : String) : Option α := (Json.ofText? s).bind ofJson?

end JsonForm

/-! ## Numbers and texts -/

/-- Reads a number below a bound. A negative zero is none. -/
def Json.natBelow? (bound : Nat) : Json → Option Nat
  | .integer false n => if n < bound then some n else none
  | _ => none

/-- Reads a number that is held in so many bits, two's complement. A negative zero is none of up
to 64 bits, and zero of more. -/
def Json.signed? (bits : Nat) : Json → Option Int
  | .integer false n => if n < Nat.pow 2 (bits - 1) then some n else none
  | .integer true n =>
    if n ≤ Nat.pow 2 (bits - 1) ∧ (n ≠ 0 ∨ 64 < bits) then some (-(n : Int)) else none
  | _ => none

instance : JsonForm UInt8 where
  toJson v := .ofNat v.toNat
  ofJson? j := (j.natBelow? UInt8.size).map UInt8.ofNat

instance : JsonForm UInt32 where
  toJson v := .ofNat v.toNat
  ofJson? j := (j.natBelow? UInt32.size).map UInt32.ofNat

instance : JsonForm UInt64 where
  toJson v := .ofNat v.toNat
  ofJson? j := (j.natBelow? UInt64.size).map UInt64.ofNat

instance : JsonForm Int64 where
  toJson v := .ofInt v.toInt
  ofJson? j := (j.signed? 64).map Int64.ofInt

instance : JsonForm (BitVec 128) where
  toJson v := .ofInt v.toInt
  ofJson? j := (j.signed? 128).map (BitVec.ofInt 128)

instance : JsonForm String where
  toJson s := .ofString s
  ofJson?
    | .string value => value
    | _ => none

/-! ## Lists and options -/

variable {α : Type} [JsonForm α]

instance : JsonForm (List α) where
  toJson items := .array (items.map toJson)
  ofJson?
    | .array items => items.mapM ofJson?
    | _ => none

instance : JsonForm (Option α) where
  toJson
    | some a => toJson a
    | none => .null
  ofJson?
    | .null => some none
    | j => (ofJson? j).map some

namespace Json

/-! ## Records -/

/-- The names of the members, unless one is no text. -/
def names? (members : List (Option String × Json)) : Option (List String) :=
  members.mapM (·.1)

/-- The values of the fields of a record, in the order of `fields`, as far as they are there. -/
def fields? (fields : List String) : Json → Option (List (Option Json))
  | .object members => do
    let names ← names? members
    guard (fields.all fun f => names.count f ≤ 1)
    return fields.map fun f => members.lookup (some f)
  | .array items => if items.length = fields.length then some (items.map some) else none
  | _ => none

/-- Reads a field that has to be there. -/
def required? (field : Option Json) : Option α := field.bind ofJson?

/-- Reads a field that may be absent. -/
def optional? (field : Option Json) : Option (Option α) := ofJson? (field.getD .null)

/-! ## Variants -/

/-- The document of a variant without content. -/
def plain (name : String) : Json := .ofString name

/-- The document of a variant with content. -/
def tagged (name : String) (content : Json) : Json := record [(name, content)]

/-- The name of a variant, and its content if there is any. -/
def variant? : Json → Option (String × Option Json)
  | .string (some name) => some (name, none)
  | .object [(some name, content)] => some (name, some content)
  | _ => none

/-- Whether there is no content, or none to speak of. -/
def isPlain : Option Json → Bool
  | none | some .null => true
  | some _ => false

/-- Reads a variant without content: the one of `all` that has the name. -/
def oneOf? {β : Type} (all : List β) (name : β → String) (j : Json) : Option β := do
  let (text, content) ← j.variant?
  guard (isPlain content)
  all.find? (name · = text)

end Json

end X86Asm
