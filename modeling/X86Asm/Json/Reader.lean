import X86Asm.Json.Basic

/-!
# Reading JSON

A document is read from the front. Each reader takes what it reads off the characters and returns
the rest, or nothing if what is there is not of its kind. Blanks may stand around values, names
and marks. Control characters are not allowed in strings.
-/

namespace X86Asm

namespace Json

/-- Whether a character is a blank between the parts of a document. -/
def isBlank (c : Char) : Bool := c = ' ' || c = '\n' || c = '\t' || c = '\r'

/-- Drops blanks. -/
def skipBlanks (cs : List Char) : List Char := cs.dropWhile isBlank

/-! ## Strings -/

/-- The value of a hexadecimal digit. -/
def hexValue? (c : Char) : Option Nat :=
  if '0' ≤ c ∧ c ≤ '9' then some (c.toNat - '0'.toNat)
  else if 'a' ≤ c ∧ c ≤ 'f' then some (c.toNat - 'a'.toNat + 10)
  else if 'A' ≤ c ∧ c ≤ 'F' then some (c.toNat - 'A'.toNat + 10)
  else none

/-- The value of four hexadecimal digits. -/
def hexUnit? (a b c d : Char) : Option Nat := do
  return 4096 * (← hexValue? a) + 256 * (← hexValue? b) + 16 * (← hexValue? c) + (← hexValue? d)

/-- What a character stands for behind a backslash. -/
def shortEscape? : Char → Option Char
  | '"' => some '"'
  | '\\' => some '\\'
  | '/' => some '/'
  | 'b' => some (Char.ofNat 8)
  | 'f' => some (Char.ofNat 12)
  | 'n' => some '\n'
  | 'r' => some '\r'
  | 't' => some '\t'
  | _ => none

/-- The numbers that the characters up to the closing quote stand for: UTF-16 units where they are
given by numbers, and else whole characters. -/
def readUnits : List Char → Option (List Nat × List Char)
  | [] => none
  | '"' :: cs => some ([], cs)
  | '\\' :: 'u' :: a :: b :: c :: d :: cs => do
    let unit ← hexUnit? a b c d
    let (units, cs) ← readUnits cs
    return (unit :: units, cs)
  | '\\' :: e :: cs => do
    let c ← shortEscape? e
    let (units, cs) ← readUnits cs
    return (c.toNat :: units, cs)
  | c :: cs => do
    guard (32 ≤ c.toNat ∧ c ≠ '\\')
    let (units, cs) ← readUnits cs
    return (c.toNat :: units, cs)

/-- Whether a unit is the first half of a surrogate pair. -/
def isHighSurrogate (n : Nat) : Bool := 0xD800 ≤ n && n < 0xDC00

/-- Whether a unit is the second half of a surrogate pair. -/
def isLowSurrogate (n : Nat) : Bool := 0xDC00 ≤ n && n < 0xE000

/-- The text that units make up: pairs are joined, and there is none if half of a pair is left. -/
def joinUnits : List Nat → Option (List Char)
  | [] => some []
  | [n] => if isHighSurrogate n || isLowSurrogate n then none else some [Char.ofNat n]
  | n :: k :: rest =>
    if isHighSurrogate n && isLowSurrogate k then do
      return Char.ofNat (0x10000 + 0x400 * (n - 0xD800) + (k - 0xDC00)) :: (← joinUnits rest)
    else if isHighSurrogate n || isLowSurrogate n then none
    else do return Char.ofNat n :: (← joinUnits (k :: rest))

/-- A string behind its opening quote. -/
def readString (cs : List Char) : Option (Option String × List Char) := do
  let (units, cs) ← readUnits cs
  return ((joinUnits units).map String.ofList, cs)

/-! ## Numbers -/

/-- Digits, of which there is at least one. -/
def readDigits (cs : List Char) : Option (List Char × List Char) :=
  let digits := cs.takeWhile Char.isDigit
  if digits.isEmpty then none else some (digits, cs.dropWhile Char.isDigit)

/-- The number that decimal digits stand for. -/
def ofDigits (digits : List Char) : Nat :=
  digits.foldl (fun n c => 10 * n + (c.toNat - '0'.toNat)) 0

/-- The fraction of a number, if there is one. Tells whether there is. -/
def readFraction : List Char → Option (Bool × List Char)
  | '.' :: cs => do
    let (_, cs) ← readDigits cs
    return (true, cs)
  | cs => some (false, cs)

/-- Drops the sign of an exponent. -/
def skipSign : List Char → List Char
  | '+' :: cs | '-' :: cs => cs
  | cs => cs

/-- The exponent of a number, if there is one. Tells whether there is. -/
def readExponent : List Char → Option (Bool × List Char)
  | 'e' :: cs | 'E' :: cs => do
    let (_, cs) ← readDigits (skipSign cs)
    return (true, cs)
  | cs => some (false, cs)

/-- A number behind its sign. The digit zero comes first only if it is the only one. -/
def readMagnitude (negative : Bool) (cs : List Char) : Option (Json × List Char) := do
  let (digits, cs) ← readDigits cs
  guard (digits.head? ≠ some '0' ∨ digits.length = 1)
  let (fraction, cs) ← readFraction cs
  let (exponent, cs) ← readExponent cs
  return (if fraction || exponent then .real else .integer negative (ofDigits digits), cs)

/-- A number. -/
def readNumber : List Char → Option (Json × List Char)
  | '-' :: cs => readMagnitude true cs
  | cs => readMagnitude false cs

/-! ## Documents -/

/-- A character that has to be there, blanks aside. -/
def expect (c : Char) (cs : List Char) : Option (List Char) :=
  match skipBlanks cs with
  | d :: cs => if c = d then some cs else none
  | [] => none

/-- A name in quotes and the colon behind it. -/
def readName (cs : List Char) : Option (Option String × List Char) := do
  let cs ← expect '"' cs
  let (name, cs) ← readString cs
  let cs ← expect ':' cs
  return (name, cs)

mutual

/-- A value. The fuel has to be at least twice the number of characters. -/
def readValue : (fuel : Nat) → List Char → Option (Json × List Char)
  | 0, _ => none
  | fuel + 1, cs =>
    match skipBlanks cs with
    | 'n' :: 'u' :: 'l' :: 'l' :: cs => some (.null, cs)
    | 't' :: 'r' :: 'u' :: 'e' :: cs => some (.bool true, cs)
    | 'f' :: 'a' :: 'l' :: 's' :: 'e' :: cs => some (.bool false, cs)
    | '"' :: cs => do
      let (value, cs) ← readString cs
      return (.string value, cs)
    | '[' :: cs => do
      match skipBlanks cs with
      | ']' :: cs => return (.array [], cs)
      | cs =>
        let (items, cs) ← readItems fuel cs
        return (.array items, cs)
    | '\x7b' :: cs => do
      match skipBlanks cs with
      | '\x7d' :: cs => return (.object [], cs)
      | cs =>
        let (members, cs) ← readMembers fuel cs
        return (.object members, cs)
    | cs => readNumber cs

/-- The items of an array from one on, and its end. -/
def readItems : (fuel : Nat) → List Char → Option (List Json × List Char)
  | 0, _ => none
  | fuel + 1, cs => do
    let (item, cs) ← readValue fuel cs
    match skipBlanks cs with
    | ']' :: cs => return ([item], cs)
    | ',' :: cs =>
      let (items, cs) ← readItems fuel cs
      return (item :: items, cs)
    | _ => none

/-- The members of an object from one on, and its end. -/
def readMembers : (fuel : Nat) → List Char → Option (List (Option String × Json) × List Char)
  | 0, _ => none
  | fuel + 1, cs => do
    let (name, cs) ← readName cs
    let (value, cs) ← readValue fuel cs
    match skipBlanks cs with
    | '\x7d' :: cs => return ([(name, value)], cs)
    | ',' :: cs =>
      let (members, cs) ← readMembers fuel cs
      return ((name, value) :: members, cs)
    | _ => none

end

/-- The document that characters are, with nothing but blanks behind it. -/
def read? (cs : List Char) : Option Json := do
  let (j, rest) ← readValue (2 * cs.length + 1) cs
  guard (skipBlanks rest).isEmpty
  return j

/-- The document that a text is. -/
def ofText? (s : String) : Option Json := read? s.toList

end Json

end X86Asm
