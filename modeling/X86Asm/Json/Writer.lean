import X86Asm.Json.Basic

/-!
# Writing JSON

Documents are written without blanks. In strings only the quote, the backslash and the control
characters below the blank are escaped, with a short escape where there is one.

What a tree does not keep is written as some document with the same tree: a number with a fraction
as `0.0`, and a string that is no text as half of a surrogate pair.
-/

namespace X86Asm

namespace Json

/-- The lower-case digit of a number below 16. -/
def lowerDigit (n : Nat) : Char :=
  if n < 10 then Char.ofNat ('0'.toNat + n) else Char.ofNat ('a'.toNat + (n - 10))

/-- A character within a string. -/
def escape (c : Char) : List Char :=
  if c = '"' then ['\\', '"']
  else if c = '\\' then ['\\', '\\']
  else if c = '\n' then ['\\', 'n']
  else if c = '\r' then ['\\', 'r']
  else if c = '\t' then ['\\', 't']
  else if c.toNat = 8 then ['\\', 'b']
  else if c.toNat = 12 then ['\\', 'f']
  else if c.toNat < 32 then
    ['\\', 'u', '0', '0', lowerDigit (c.toNat / 16), lowerDigit (c.toNat % 16)]
  else [c]

/-- A string with its quotes. -/
def writeString : Option String → List Char
  | some s => '"' :: (s.toList.flatMap escape ++ ['"'])
  | none => ['"', '\\', 'u', 'd', '8', '0', '0', '"']

/-- A number. -/
def writeInteger (negative : Bool) (magnitude : Nat) : List Char :=
  (if negative then ['-'] else []) ++ Nat.toDigits 10 magnitude

mutual

/-- The characters of a document. -/
def write : Json → List Char
  | null => ['n', 'u', 'l', 'l']
  | bool true => ['t', 'r', 'u', 'e']
  | bool false => ['f', 'a', 'l', 's', 'e']
  | integer negative magnitude => writeInteger negative magnitude
  | real => ['0', '.', '0']
  | string value => writeString value
  | array [] => ['[', ']']
  | array (item :: items) => '[' :: (write item ++ writeItems items)
  | object [] => ['\x7b', '\x7d']
  | object (member :: members) => '\x7b' :: (writeMember member ++ writeMembers members)

/-- The items of an array behind the first one, and its end. -/
def writeItems : List Json → List Char
  | [] => [']']
  | item :: items => ',' :: (write item ++ writeItems items)

/-- A member of an object. -/
def writeMember : Option String × Json → List Char
  | (name, value) => writeString name ++ ':' :: write value

/-- The members of an object behind the first one, and its end. -/
def writeMembers : List (Option String × Json) → List Char
  | [] => ['\x7d']
  | member :: members => ',' :: (writeMember member ++ writeMembers members)

end

/-- The text of a document. -/
def text (j : Json) : String := String.ofList j.write

end Json

end X86Asm
