import X86Asm.Proofs.Json.Token

/-!
# Documents read back

Every tree is read back from its text (`ofText?_text`). The readers are shown to take what is
written off the front of whatever follows, one step at a time: what a value begins with tells the
reader its kind, and behind an item or a member stands a comma or the closing bracket. The fuel
that suffices for some written characters is twice their number.
-/

namespace X86Asm

namespace Json

/-! ## What a value begins with -/

/-- Whether a character is the first of a value. -/
def opens (c : Char) : Bool :=
  c = 'n' || c = 't' || c = 'f' || c = '"' || c = '[' || c = '\x7b' || c = '-' || c.isDigit

/-- A value does not begin with a blank or a closing bracket. -/
theorem ne_of_opens {c : Char} (h : opens c = true) :
    isBlank c = false ∧ c ≠ ']' ∧ c ≠ '\x7d' := by
  refine ⟨?_, ?_, ?_⟩
  · rw [Bool.eq_false_iff]
    intro blank
    simp only [isBlank, Bool.or_eq_true, decide_eq_true_eq] at blank
    obtain ((rfl | rfl) | rfl) | rfl := blank <;> exact absurd h (by decide)
  · rintro rfl
    exact absurd h (by decide)
  · rintro rfl
    exact absurd h (by decide)

/-- A number begins with its sign or a digit, and no other value does. -/
theorem exists_writeInteger_eq (negative : Bool) (n : Nat) :
    ∃ c cs, writeInteger negative n = c :: cs ∧ (c = '-' ∨ c.isDigit) := by
  cases negative with
  | true => exact ⟨_, _, rfl, .inl rfl⟩
  | false =>
    obtain ⟨c, cs, e⟩ := List.exists_cons_of_ne_nil (Nat.toDigits_ne_nil (b := 10) (n := n))
    refine ⟨c, cs, e, .inr ?_⟩
    exact Nat.isDigit_of_mem_toDigits (b := 10) (by decide) (by decide) (e ▸ List.mem_cons_self)

/-- What is written of a value begins with a character that opens a value. -/
theorem exists_write_eq (j : Json) : ∃ c cs, j.write = c :: cs ∧ opens c = true := by
  cases j with
  | null => exact ⟨_, _, rfl, rfl⟩
  | bool value => cases value <;> exact ⟨_, _, rfl, rfl⟩
  | integer negative n =>
    obtain ⟨c, cs, e, h⟩ := exists_writeInteger_eq negative n
    refine ⟨c, cs, e, ?_⟩
    obtain rfl | digit := h
    · rfl
    · simp [opens, digit]
  | real => exact ⟨_, _, rfl, rfl⟩
  | string value =>
    obtain ⟨cs, e, -⟩ := exists_readString_writeString value
    exact ⟨_, cs, e, rfl⟩
  | array items => cases items <;> exact ⟨_, _, rfl, rfl⟩
  | object members => cases members <;> exact ⟨_, _, rfl, rfl⟩

/-- Nothing is dropped in front of a character that is no blank. -/
theorem skipBlanks_cons {c : Char} (h : isBlank c = false) (cs : List Char) :
    skipBlanks (c :: cs) = c :: cs := by
  simp [skipBlanks, h]

/-! ## One step of a reader -/

section Steps

variable {fuel : Nat} {c : Char} {cs rest after : List Char} {j : Json}

/-- A value that begins with a sign or a digit is read as a number. -/
theorem readValue_number (h : c = '-' ∨ c.isDigit) :
    readValue (fuel + 1) (c :: cs) = readNumber (c :: cs) := by
  have opening : opens c = true := by
    obtain rfl | digit := h
    · rfl
    · simp [opens, digit]
  rw [readValue, skipBlanks_cons (ne_of_opens opening).1]
  -- No other kind of value begins with a sign or a digit.
  split <;> simp_all

/-- A value that begins with a quote is read as a string. -/
theorem readValue_string {value : Option String} (h : readString cs = some (value, rest)) :
    readValue (fuel + 1) ('"' :: cs) = some (.string value, rest) := by
  rw [readValue, skipBlanks_cons (by decide)]
  simp [h]

/-- Behind an opening bracket the items of an array are read. -/
theorem readValue_array {items : List Json} (opening : opens c = true)
    (h : readItems fuel (c :: cs) = some (items, rest)) :
    readValue (fuel + 1) ('[' :: c :: cs) = some (.array items, rest) := by
  obtain ⟨blank, bracket, -⟩ := ne_of_opens opening
  rw [readValue, skipBlanks_cons (by decide)]
  simp [skipBlanks_cons blank, bracket, h]

/-- Behind an opening brace the members of an object are read. -/
theorem readValue_object {members : List (Option String × Json)}
    (h : readMembers fuel ('"' :: cs) = some (members, rest)) :
    readValue (fuel + 1) ('\x7b' :: '"' :: cs) = some (.object members, rest) := by
  rw [readValue, skipBlanks_cons (by decide)]
  simp [skipBlanks_cons (c := '"') (by decide), h]

/-- The item in front of the closing bracket is the last one. -/
theorem readItems_last (h : readValue fuel cs = some (j, ']' :: rest)) :
    readItems (fuel + 1) cs = some ([j], rest) := by
  simp [readItems, h, skipBlanks_cons (c := ']') (by decide)]

/-- Behind a comma there are more items. -/
theorem readItems_comma {items : List Json} (h : readValue fuel cs = some (j, ',' :: after))
    (h' : readItems fuel after = some (items, rest)) :
    readItems (fuel + 1) cs = some (j :: items, rest) := by
  simp [readItems, h, skipBlanks_cons (c := ',') (by decide), h']

/-- What is written of a name is read back, up to the colon. -/
theorem readName_writeString (name : Option String) (rest : List Char) :
    readName (writeString name ++ ':' :: rest) = some (name, rest) := by
  obtain ⟨cs, e, h⟩ := exists_readString_writeString name
  simp [readName, expect, e, h, skipBlanks_cons (c := '"') (by decide),
    skipBlanks_cons (c := ':') (by decide)]

variable {name : Option String}

/-- The member in front of the closing brace is the last one. -/
theorem readMembers_last (h : readValue fuel cs = some (j, '\x7d' :: rest)) :
    readMembers (fuel + 1) (writeString name ++ ':' :: cs) = some ([(name, j)], rest) := by
  simp [readMembers, readName_writeString, h, skipBlanks_cons (c := '\x7d') (by decide)]

/-- Behind a comma there are more members. -/
theorem readMembers_comma {members : List (Option String × Json)}
    (h : readValue fuel cs = some (j, ',' :: after))
    (h' : readMembers fuel after = some (members, rest)) :
    readMembers (fuel + 1) (writeString name ++ ':' :: cs) = some ((name, j) :: members, rest) := by
  simp [readMembers, readName_writeString, h, skipBlanks_cons (c := ',') (by decide), h']

end Steps

/-! ## Whole documents -/

/-- A number ends in front of a comma and of a closing bracket or brace. -/
theorem endsNumber_cons {c : Char} (h : c = ',' ∨ c = ']' ∨ c = '\x7d') (rest : List Char) :
    EndsNumber (c :: rest) := by
  rintro d ⟨⟩
  obtain rfl | rfl | rfl := h <;> decide

/-- A number with a fraction is read as one. -/
theorem readNumber_real {rest : List Char} (h : EndsNumber rest) :
    readNumber ('0' :: '.' :: '0' :: rest) = some (.real, rest) := by
  have whole : readDigits ('0' :: '.' :: '0' :: rest) = some (['0'], '.' :: '0' :: rest) :=
    readDigits_toDigits 0 (by rintro c ⟨⟩; decide)
  have fraction : readDigits ('0' :: rest) = some (['0'], rest) :=
    readDigits_toDigits 0 fun c e => (h c e).1
  simp [readNumber, readMagnitude, whole, readFraction, fraction, h.readExponent]

/-- What is written behind an item begins with a mark and ends a number. -/
theorem endsNumber_writeItems (items : List Json) (rest : List Char) :
    EndsNumber (writeItems items ++ rest) := by
  cases items with
  | nil => exact endsNumber_cons (.inr (.inl rfl)) _
  | cons item items => exact endsNumber_cons (.inl rfl) _

/-- A number ends in front of the members that may follow it in an object. -/
theorem endsNumber_writeMembers (members : List (Option String × Json)) (rest : List Char) :
    EndsNumber (writeMembers members ++ rest) := by
  cases members with
  | nil => exact endsNumber_cons (.inr (.inr rfl)) _
  | cons member members => exact endsNumber_cons (.inl rfl) _

/-- The items of an array are written with their closing bracket, so they take up a character. -/
theorem length_writeItems_pos (items : List Json) : 0 < (writeItems items).length := by
  cases items <;> simp [writeItems]

/-- The members of an object are written with their closing brace, so they take up a character. -/
theorem length_writeMembers_pos (members : List (Option String × Json)) :
    0 < (writeMembers members).length := by
  cases members <;> simp [writeMembers]

mutual

/-- A written value is read back, up to something that ends a number. -/
theorem readValue_write (j : Json) (fuel : Nat) (rest : List Char)
    (enough : 2 * j.write.length ≤ fuel) (ends : EndsNumber rest) :
    readValue fuel (j.write ++ rest) = some (j, rest) := by
  -- a written value is not empty, so there is fuel for a step
  obtain ⟨fuel, rfl⟩ : ∃ f, fuel = f + 1 := by
    obtain ⟨c, cs, e, -⟩ := exists_write_eq j
    rw [e, List.length_cons] at enough
    exact ⟨fuel - 1, by omega⟩
  cases j with
  | null => simp [write, readValue, skipBlanks, isBlank]
  | bool value => cases value <;> simp [write, readValue, skipBlanks, isBlank]
  | integer negative n =>
    obtain ⟨c, cs, e, sign⟩ := exists_writeInteger_eq negative n
    have number := readNumber_writeInteger negative n ends
    rw [write, e, List.cons_append, readValue_number sign, ← List.cons_append, ← e, number]
  | real => exact (readValue_number (.inr (by decide))).trans (readNumber_real ends)
  | string value =>
    obtain ⟨cs, e, h⟩ := exists_readString_writeString value
    rw [write, e]
    exact readValue_string (h rest)
  | array items =>
    cases items with
    | nil => simp [write, readValue, skipBlanks, isBlank]
    | cons item items =>
      simp only [write, List.length_cons, List.length_append] at enough
      -- the opening bracket pays for two steps, this one and the first of the items
      have body := readItems_write item items fuel rest (by omega)
      obtain ⟨c, cs, e, opening⟩ := exists_write_eq item
      simp only [write, List.cons_append, List.append_assoc]
      rw [e] at body ⊢
      exact readValue_array opening body
  | object members =>
    cases members with
    | nil => simp [write, readValue, skipBlanks, isBlank]
    | cons member members =>
      simp only [write, List.length_cons, List.length_append] at enough
      have body := readMembers_write member members fuel rest (by omega)
      obtain ⟨name, value⟩ := member
      obtain ⟨cs, e, -⟩ := exists_readString_writeString name
      simp only [write, writeMember, List.cons_append, List.append_assoc] at body ⊢
      rw [e] at body ⊢
      exact readValue_object body
termination_by fuel

/-- The written items of an array are read back. -/
theorem readItems_write (item : Json) (items : List Json) (fuel : Nat) (rest : List Char)
    (enough : 2 * (item.write.length + (writeItems items).length) ≤ fuel + 1) :
    readItems fuel (item.write ++ (writeItems items ++ rest)) = some (item :: items, rest) := by
  have behind := length_writeItems_pos items
  obtain ⟨fuel, rfl⟩ : ∃ f, fuel = f + 1 := ⟨fuel - 1, by omega⟩
  have first := readValue_write item fuel _ (by omega) (endsNumber_writeItems items rest)
  cases items with
  | nil => exact readItems_last first
  | cons next items =>
    simp only [writeItems, List.length_cons, List.length_append] at enough
    have others := readItems_write next items fuel rest (by omega)
    simp only [writeItems, List.cons_append, List.append_assoc] at first ⊢
    exact readItems_comma first others
termination_by fuel

/-- The written members of an object are read back. -/
theorem readMembers_write (member : Option String × Json) (members : List (Option String × Json))
    (fuel : Nat) (rest : List Char)
    (enough : 2 * ((writeMember member).length + (writeMembers members).length) ≤ fuel + 1) :
    readMembers fuel (writeMember member ++ (writeMembers members ++ rest))
      = some (member :: members, rest) := by
  have behind := length_writeMembers_pos members
  obtain ⟨fuel, rfl⟩ : ∃ f, fuel = f + 1 := ⟨fuel - 1, by omega⟩
  obtain ⟨name, value⟩ := member
  simp only [writeMember, List.length_append, List.length_cons] at enough
  have first := readValue_write value fuel _ (by omega)
    (endsNumber_writeMembers members rest)
  simp only [writeMember, List.append_assoc, List.cons_append]
  cases members with
  | nil => exact readMembers_last first
  | cons next members =>
    simp only [writeMembers, List.length_cons, List.length_append] at enough
    have others := readMembers_write next members fuel rest (by omega)
    simp only [writeMembers, List.cons_append, List.append_assoc] at first ⊢
    exact readMembers_comma first others
termination_by fuel

end

/-- Every tree is read back from its text. -/
theorem ofText?_text (j : Json) : ofText? j.text = some j := by
  have value := readValue_write j (2 * j.write.length + 1) [] (by omega) (by rintro c ⟨⟩)
  rw [List.append_nil] at value
  rw [ofText?, text, String.toList_ofList, read?, value]
  rfl

end Json

end X86Asm
