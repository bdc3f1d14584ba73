import X86Asm.Interchange.Machine
import X86Asm.Proofs.Json.Form

/-!
# Lawful JSON forms of names and numbers

No two variants of a type have the same name in documents. Handles and flags are read back as the
numbers that they are.
-/

namespace X86Asm

/-! ## Variants without content -/

/-- Every register is listed. -/
theorem Register.mem_all (r : Register) : r ∈ Register.all := by
  cases r <;> simp [Register.all]

instance : LawfulJsonForm Mode where
  ofJson?_toJson m := Json.oneOf?_plain (by decide) (by cases m <;> decide)

instance : LawfulJsonForm Register where
  ofJson?_toJson r := Json.oneOf?_plain (by decide +kernel) r.mem_all

instance : LawfulJsonForm Condition where
  ofJson?_toJson c := Json.oneOf?_plain (by decide +kernel) (by cases c <;> decide)

instance : LawfulJsonForm Width where
  ofJson?_toJson w := Json.oneOf?_plain (by decide) (by cases w <;> decide)

instance : LawfulJsonForm FixupKind where
  ofJson?_toJson k := Json.oneOf?_plain (by decide) (by cases k <;> decide)

/-! ## Mnemonics, handles and flags -/

/-- A mnemonic without a condition is read back from its name. -/
theorem Mnemonic.oneOf?_unconditional {m : Mnemonic} (h : m ∈ Mnemonic.unconditional) :
    Json.oneOf? Mnemonic.unconditional Mnemonic.tag (.plain m.tag) = some m :=
  Json.oneOf?_plain (by decide +kernel) h

instance : LawfulJsonForm Mnemonic where
  ofJson?_toJson m := by
    cases m with
    | jcc c => exact map_ofJson?_toJson Mnemonic.jcc c
    | alu op =>
      cases op <;> refine Mnemonic.oneOf?_unconditional ?_ <;> decide
    | _ =>
      refine Mnemonic.oneOf?_unconditional ?_
      decide

instance : LawfulJsonForm Label where
  ofJson?_toJson l := map_ofJson?_toJson Label.mk l.id

instance : LawfulJsonForm Section where
  ofJson?_toJson s := map_ofJson?_toJson Section.mk s.id

instance : LawfulJsonForm NameId where
  ofJson?_toJson n := map_ofJson?_toJson NameId.mk n.id

instance : LawfulJsonForm SectionFlags where
  ofJson?_toJson f := map_ofJson?_toJson SectionFlags.mk f.bits

instance : LawfulJsonForm NodeId where
  ofJson?_toJson i := by
    have fields : (toJson i).fields? ["index", "gen"]
        = some [some (toJson i.index), some (toJson i.generation)] :=
      Json.fields?_record _ [_, _] (by decide) rfl
    simp [ofJson?, fields]

end X86Asm
