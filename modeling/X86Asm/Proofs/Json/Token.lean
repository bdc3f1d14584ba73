import Mathlib.Data.List.Basic
import Mathlib.Data.Option.Basic
import Mathlib.Tactic.SplitIfs
import X86Asm.Json.Reader
import X86Asm.Json.Writer

/-!
# Strings and numbers of a document

A string or a number that is written out is read back by the reader of its kind, whatever follows
it. A string ends itself. A number ends where something stands that cannot go on with it
(`EndsNumber`), which is what follows a value in a document: its end, a comma or a bracket.
-/

namespace X86Asm

namespace Json

/-! ## Strings -/

section Units

variable {rest after : List Char} {units : List Nat}

/-- A character that stands for itself is read as its number. -/
theorem readUnits_plain {c : Char} (control : 32 ≤ c.toNat) (quote : c ≠ '"')
    (backslash : c ≠ '\\') (h : readUnits rest = some (units, after)) :
    readUnits (c :: rest) = some (c.toNat :: units, after) := by
  rw [readUnits]
  · simp [control, backslash, h]
  · simpa using quote
  · intro _ _ _ _ _ e
    exact absurd e backslash
  · intro _ _ e
    exact absurd e backslash

/-- A short escape is read as the number of the character it stands for. -/
theorem readUnits_short {e c : Char} (h' : shortEscape? e = some c) (unit : e ≠ 'u')
    (h : readUnits rest = some (units, after)) :
    readUnits ('\\' :: e :: rest) = some (c.toNat :: units, after) := by
  rw [readUnits]
  · simp [h', h]
  · intro _ _ _ _ _ e
    exact absurd e unit

/-- An escape with four digits is read as the unit they give. -/
theorem readUnits_unit {a b c d : Char} {n : Nat} (h' : hexUnit? a b c d = some n)
    (h : readUnits rest = some (units, after)) :
    readUnits ('\\' :: 'u' :: a :: b :: c :: d :: rest) = some (n :: units, after) := by
  simp [readUnits, h', h]

end Units

/-- Hexadecimal digits are read back. -/
theorem hexValue?_lowerDigit : ∀ n < 16, hexValue? (lowerDigit n) = some n := by
  decide

/-- The escape of a control character by number gives its number. -/
theorem hexUnit?_lowerDigit {n : Nat} (h : n < 32) :
    hexUnit? '0' '0' (lowerDigit (n / 16)) (lowerDigit (n % 16)) = some n := by
  have high : hexValue? (lowerDigit (n / 16)) = some (n / 16) :=
    hexValue?_lowerDigit _ (by omega)
  have low : hexValue? (lowerDigit (n % 16)) = some (n % 16) :=
    hexValue?_lowerDigit _ (by omega)
  have zero : hexValue? '0' = some 0 := hexValue?_lowerDigit 0 (by decide)
  simp only [hexUnit?, high, low, zero, Option.bind_eq_bind, Option.bind_some, Option.pure_def,
    Option.some.injEq]
  omega

/-- A written character is read as its number. -/
theorem readUnits_escape (c : Char) {rest after : List Char} {units : List Nat}
    (h : readUnits rest = some (units, after)) :
    readUnits (escape c ++ rest) = some (c.toNat :: units, after) := by
  unfold escape
  split_ifs with quote backslash newline ret tab backspace feed control
  · subst quote
    exact readUnits_short rfl (by decide) h
  · subst backslash
    exact readUnits_short rfl (by decide) h
  · subst newline
    exact readUnits_short rfl (by decide) h
  · subst ret
    exact readUnits_short rfl (by decide) h
  · subst tab
    exact readUnits_short rfl (by decide) h
  · rw [backspace]
    exact readUnits_short (c := Char.ofNat 8) rfl (by decide) h
  · rw [feed]
    exact readUnits_short (c := Char.ofNat 12) rfl (by decide) h
  · exact readUnits_unit (hexUnit?_lowerDigit control) h
  · exact readUnits_plain (by omega) quote backslash h

/-- Escaped characters are read back as their numbers, up to the closing quote. -/
theorem readUnits_flatMap_escape (cs rest : List Char) :
    readUnits (cs.flatMap escape ++ '"' :: rest) = some (cs.map Char.toNat, rest) := by
  induction cs with
  | nil => simp [readUnits]
  | cons c cs ih =>
    rw [List.flatMap_cons, List.append_assoc]
    exact readUnits_escape c ih

/-- A character is no half of a surrogate pair. -/
theorem isSurrogate_toNat (c : Char) :
    isHighSurrogate c.toNat = false ∧ isLowSurrogate c.toNat = false := by
  have valid : c.toNat < 0xD800 ∨ 0xDFFF < c.toNat ∧ c.toNat < 0x110000 := c.valid
  simp only [isHighSurrogate, isLowSurrogate, Bool.and_eq_false_iff, decide_eq_false_iff_not]
  omega

/-- The numbers of characters make up the characters. -/
theorem joinUnits_toNat (cs : List Char) : joinUnits (cs.map Char.toNat) = some cs := by
  induction cs with
  | nil => rfl
  | cons c cs ih =>
    obtain ⟨high, low⟩ := isSurrogate_toNat c
    cases cs with
    | nil => simp [joinUnits, high, low, Char.ofNat_toNat]
    | cons d cs =>
      rw [List.map_cons] at ih
      simp [joinUnits, high, low, ih, Char.ofNat_toNat]

/-- A string is read back from what is written behind its opening quote. -/
theorem exists_readString_writeString (value : Option String) :
    ∃ cs, writeString value = '"' :: cs ∧
      ∀ rest, readString (cs ++ rest) = some (value, rest) := by
  cases value with
  | none =>
    refine ⟨_, rfl, fun rest => ?_⟩
    have units : readUnits ('\\' :: 'u' :: 'd' :: '8' :: '0' :: '0' :: '"' :: rest)
        = some ([0xD800], rest) :=
      readUnits_unit rfl (readUnits_flatMap_escape [] rest)
    simp [readString, units, joinUnits, isHighSurrogate]
  | some s =>
    refine ⟨_, rfl, fun rest => ?_⟩
    have units := readUnits_flatMap_escape s.toList rest
    simp [readString, units, joinUnits_toNat]

/-! ## Numbers -/

/-- Whether what comes next cannot go on with a number: it is no digit, fraction or exponent. -/
def EndsNumber (rest : List Char) : Prop :=
  ∀ c ∈ rest.head?, c.isDigit = false ∧ c ≠ '.' ∧ c ≠ 'e' ∧ c ≠ 'E'

/-- A number that ends here has no fraction. -/
theorem EndsNumber.readFraction {rest : List Char} (h : EndsNumber rest) :
    readFraction rest = some (false, rest) := by
  cases rest with
  | nil => rfl
  | cons c cs =>
    obtain ⟨-, point, -, -⟩ := h c rfl
    simp [Json.readFraction, point]

/-- A number that ends here has no exponent. -/
theorem EndsNumber.readExponent {rest : List Char} (h : EndsNumber rest) :
    readExponent rest = some (false, rest) := by
  cases rest with
  | nil => rfl
  | cons c cs =>
    obtain ⟨-, -, lower, upper⟩ := h c rfl
    simp [Json.readExponent, lower, upper]

/-- The digits in front of something else. -/
theorem readDigits_append {digits rest : List Char} (ne : digits ≠ [])
    (all : ∀ c ∈ digits, c.isDigit) (h : ∀ c ∈ rest.head?, c.isDigit = false) :
    readDigits (digits ++ rest) = some (digits, rest) := by
  have none_left : rest.takeWhile Char.isDigit = [] ∧ rest.dropWhile Char.isDigit = rest := by
    cases rest with
    | nil => exact ⟨rfl, rfl⟩
    | cons c cs => simp [h c rfl]
  simp [readDigits, List.takeWhile_append_of_pos all, List.dropWhile_append_of_pos all, none_left,
    ne]

/-- Only zero has the digit zero. -/
theorem digitChar_ne_zero : ∀ n < 10, 0 < n → Nat.digitChar n ≠ '0' := by
  decide

/-- A number above zero does not begin with the digit zero. -/
theorem head?_toDigits_ne {n : Nat} (h : 0 < n) : (Nat.toDigits 10 n).head? ≠ some '0' := by
  induction n using Nat.strongRecOn with
  | ind n ih =>
    obtain small | large := Nat.lt_or_ge n 10
    · rw [Nat.toDigits_of_lt_base small]
      simpa using digitChar_ne_zero n small h
    · rw [Nat.toDigits_of_base_le (by decide) large,
        List.head?_append_of_ne_nil _ Nat.toDigits_ne_nil]
      exact ih (n / 10) (by omega) (by omega)

/-- The decimal digits of a number are read back, up to where the digits end. -/
theorem readDigits_toDigits (n : Nat) {rest : List Char} (h : ∀ c ∈ rest.head?, c.isDigit = false) :
    readDigits (Nat.toDigits 10 n ++ rest) = some (Nat.toDigits 10 n, rest) :=
  readDigits_append Nat.toDigits_ne_nil
    (fun _ => Nat.isDigit_of_mem_toDigits (by decide) (by decide)) h

/-- The decimal digits of a number, with no fraction or exponent behind them, are read back as an
integer. -/
theorem readMagnitude_toDigits (negative : Bool) (n : Nat) {rest : List Char}
    (h : EndsNumber rest) :
    readMagnitude negative (Nat.toDigits 10 n ++ rest) = some (.integer negative n, rest) := by
  have digits := readDigits_toDigits n fun c e => (h c e).1
  have leading : (Nat.toDigits 10 n).head? ≠ some '0' ∨ (Nat.toDigits 10 n).length = 1 := by
    obtain rfl | pos := Nat.eq_zero_or_pos n
    · exact .inr rfl
    · exact .inl (head?_toDigits_ne pos)
  have value : ofDigits (Nat.toDigits 10 n) = n := Nat.ofDigitChars_toDigits (by decide) (by decide)
  simp [readMagnitude, digits, leading, h.readFraction, h.readExponent, value]

/-- A number is read back from what is written, up to something that ends it. -/
theorem readNumber_writeInteger (negative : Bool) (n : Nat) {rest : List Char}
    (h : EndsNumber rest) :
    readNumber (writeInteger negative n ++ rest) = some (.integer negative n, rest) := by
  cases negative with
  | true => exact readMagnitude_toDigits true n h
  | false =>
    obtain ⟨c, cs, e⟩ := List.exists_cons_of_ne_nil (Nat.toDigits_ne_nil (b := 10) (n := n))
    have digit : c.isDigit := Nat.isDigit_of_mem_toDigits (b := 10) (by decide) (by decide)
      (e ▸ List.mem_cons_self)
    have sign : c ≠ '-' := by rintro rfl; exact absurd digit (by decide)
    have := readMagnitude_toDigits false n h
    rw [e] at this
    simpa [writeInteger, e, readNumber, sign] using this

end Json

end X86Asm
