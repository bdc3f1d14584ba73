/-!
# JSON trees

What a JSON document says, as far as the readers of this library can tell documents apart. Members
of an object keep their order, and a name may come more than once. Numbers are integers with a
sign of their own, so that a negative zero stays one; the value of a number with a fraction or an
exponent is not kept.

A string of a document consists of UTF-16 units and may hold half of a surrogate pair, which no
text can. Such a string is `none`, whichever it is.
-/

namespace X86Asm

/-- A JSON document. -/
inductive Json where
  /-- The literal `null`. -/
  | null
  /-- A truth value. -/
  | bool (value : Bool)
  /-- A number without fraction and exponent. -/
  | integer (negative : Bool) (magnitude : Nat)
  /-- A number with a fraction or an exponent. -/
  | real
  /-- A string. -/
  | string (value : Option String)
  /-- An array. -/
  | array (items : List Json)
  /-- An object. -/
  | object (members : List (Option String × Json))
deriving Repr

namespace Json

/-- The document that is a number. -/
def ofInt (v : Int) : Json := .integer (v < 0) v.natAbs

/-- The document that is a natural number. -/
def ofNat (n : Nat) : Json := .integer false n

/-- The document that is a text. -/
def ofString (s : String) : Json := .string (some s)

/-- The object with some members. -/
def record (members : List (String × Json)) : Json :=
  .object (members.map fun (name, value) => (some name, value))

end Json

end X86Asm
