import X86Asm.Arena
import X86Asm.Encoding.Fields
import X86Asm.Json.Form
import X86Asm.NameTable
import X86Asm.SectionFlags

/-!
# JSON forms of names and numbers

Modes, registers, conditions, mnemonics, widths and kinds of fields are variants, named as in
assembly text with the first letter in upper case. Handles and flags are plain numbers.
-/

namespace X86Asm

/-- A word with its first letter in upper case. -/
def capitalized (word : String) : String :=
  match word.toList with
  | [] => ""
  | c :: cs => String.ofList (c.toUpper :: cs)

/-! ## Variants without content -/

/-- The name of a mode in documents. -/
def Mode.tag : Mode → String
  | real16 => "Real16"
  | legacy32 => "Legacy32"
  | compat32 => "Compat32"
  | long64 => "Long64"

instance : JsonForm Mode where
  toJson m := .plain m.tag
  ofJson? := Json.oneOf? Mode.all Mode.tag

/-- The name of a register in documents. -/
def Register.tag (r : Register) : String := capitalized r.name

instance : JsonForm Register where
  toJson r := .plain r.tag
  ofJson? := Json.oneOf? Register.all Register.tag

/-- The name of a condition in documents. -/
def Condition.tag (c : Condition) : String := capitalized c.suffix

instance : JsonForm Condition where
  toJson c := .plain c.tag
  ofJson? := Json.oneOf? Condition.all Condition.tag

/-- The name of a width in documents. -/
def Width.tag : Width → String
  | bits8 => "B8"
  | bits16 => "B16"
  | bits32 => "B32"
  | bits64 => "B64"

instance : JsonForm Width where
  toJson w := .plain w.tag
  ofJson? := Json.oneOf? Width.all Width.tag

/-- The name of a kind of field in documents. -/
def FixupKind.tag : FixupKind → String
  | absolute => "Absolute"
  | relative => "Relative"

instance : JsonForm FixupKind where
  toJson k := .plain k.tag
  ofJson? := Json.oneOf? [.absolute, .relative] FixupKind.tag

/-! ## Mnemonics -/

/-- The name of a mnemonic in documents. The conditional jumps share one. -/
def Mnemonic.tag : Mnemonic → String
  | jcc _ => "Jcc"
  | m => capitalized m.name

instance : JsonForm Mnemonic where
  toJson
    | .jcc c => .tagged "Jcc" (toJson c)
    | m => .plain m.tag
  ofJson? j :=
    match j.variant? with
    | some ("Jcc", some content) => (ofJson? content).map .jcc
    | _ => j.oneOf? Mnemonic.unconditional Mnemonic.tag

/-! ## Handles and flags -/

instance : JsonForm Label where
  toJson l := toJson l.id
  ofJson? j := (ofJson? j).map Label.mk

instance : JsonForm Section where
  toJson s := toJson s.id
  ofJson? j := (ofJson? j).map Section.mk

instance : JsonForm NameId where
  toJson n := toJson n.id
  ofJson? j := (ofJson? j).map NameId.mk

instance : JsonForm SectionFlags where
  toJson f := toJson f.bits
  ofJson? j := (ofJson? j).map SectionFlags.mk

instance : JsonForm NodeId where
  toJson i := .record [("index", toJson i.index), ("gen", toJson i.generation)]
  ofJson? j := do
    match ← j.fields? ["index", "gen"] with
    | [index, generation] => return ⟨← Json.required? index, ← Json.required? generation⟩
    | _ => none

end X86Asm
