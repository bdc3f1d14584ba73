import Mathlib.Data.List.Nodup
import X86Asm.Json.Form
import X86Asm.Proofs.Json.Document

/-!
# Lawful JSON forms

A JSON form is lawful if the document of a value is read as the value (`LawfulJsonForm`). The text
is then read back too (`read?_write`), since no document is lost in its text. Lists of a type with a
lawful form have one; so have records of such fields, optional ones among them, and variants with
such content.
-/

namespace X86Asm

/-- Types whose documents are read as the values they are of. -/
class LawfulJsonForm (α : Type) [JsonForm α] : Prop where
  /-- The document of a value is read as the value. -/
  ofJson?_toJson (a : α) : ofJson? (toJson a) = some a

attribute [simp] LawfulJsonForm.ofJson?_toJson

/-- The text of a document is read as the document is. -/
theorem JsonForm.read?_write {α : Type} [JsonForm α] (a : α) :
    JsonForm.read? (JsonForm.write a) = ofJson? (α := α) (toJson a) := by
  rw [read?, write, Json.ofText?_text, Option.bind_some]

/-- What wraps a value that is read back is read back. -/
theorem map_ofJson?_toJson {α β : Type} [JsonForm α] [LawfulJsonForm α] (f : α → β) (a : α) :
    (ofJson? (toJson a)).map f = some (f a) := by
  rw [LawfulJsonForm.ofJson?_toJson, Option.map_some]

/-! ## Numbers and texts -/

namespace Json

/-- A natural number within its bound is read back. -/
theorem natBelow?_ofNat {n bound : Nat} (h : n < bound) : (ofNat n).natBelow? bound = some n := by
  simp [ofNat, natBelow?, h]

/-- A number that so many bits hold is read as one. -/
theorem signed?_ofInt {bits : Nat} {v : Int} (lower : -(Nat.pow 2 (bits - 1) : Int) ≤ v)
    (upper : v < (Nat.pow 2 (bits - 1) : Nat)) : (ofInt v).signed? bits = some v := by
  by_cases negative : v < 0
  · have magnitude : v.natAbs ≤ Nat.pow 2 (bits - 1) ∧ (v.natAbs ≠ 0 ∨ 64 < bits) := by omega
    rw [ofInt, decide_eq_true negative, signed?, if_pos magnitude]
    congr 1
    omega
  · have magnitude : v.natAbs < Nat.pow 2 (bits - 1) := by omega
    rw [ofInt, decide_eq_false negative, signed?, if_pos magnitude]
    congr 1
    omega

end Json

instance : LawfulJsonForm UInt8 where
  ofJson?_toJson v := by
    simp [ofJson?, toJson, Json.natBelow?_ofNat v.toNat_lt]

instance : LawfulJsonForm UInt32 where
  ofJson?_toJson v := by
    simp [ofJson?, toJson, Json.natBelow?_ofNat v.toNat_lt]

instance : LawfulJsonForm UInt64 where
  ofJson?_toJson v := by
    simp [ofJson?, toJson, Json.natBelow?_ofNat v.toNat_lt]

instance : LawfulJsonForm Int64 where
  ofJson?_toJson v := by
    have read : (Json.ofInt v.toInt).signed? 64 = some v.toInt :=
      Json.signed?_ofInt v.le_toInt v.toInt_lt
    simp [ofJson?, toJson, read]

instance : LawfulJsonForm (BitVec 128) where
  ofJson?_toJson v := by
    have read : (Json.ofInt v.toInt).signed? 128 = some v.toInt :=
      Json.signed?_ofInt v.le_toInt v.toInt_lt
    simp [ofJson?, toJson, read]

instance : LawfulJsonForm String where
  ofJson?_toJson _ := rfl

/-! ## Lists and options -/

/-- The items of a list are read back one by one. -/
theorem mapM_ofJson?_toJson {α : Type} [JsonForm α] [LawfulJsonForm α] (items : List α) :
    (items.map toJson).mapM (ofJson? (α := α)) = some items := by
  induction items with
  | nil => rfl
  | cons item items ih => simp [ih]

instance {α : Type} [JsonForm α] [LawfulJsonForm α] : LawfulJsonForm (List α) where
  ofJson?_toJson items := mapM_ofJson?_toJson items

namespace Json

/-! ## Records -/

/-- The names of members are all there when each of them is a text. -/
theorem names?_map (members : List (String × Json)) :
    names? (members.map fun (name, value) => (some name, value)) = some (members.map (·.1)) := by
  induction members with
  | nil => rfl
  | cons member members ih =>
    rw [names?] at ih
    simp [names?, ih]

/-- Each field is found under its name if no name comes twice. -/
theorem map_lookup_zip {names : List String} {values : List Json} (nodup : names.Nodup)
    (same : names.length = values.length) :
    names.map (fun f => ((names.zip values).map fun (name, value) => (some name, value)).lookup
      (some f)) = values.map some := by
  induction names generalizing values with
  | nil =>
    obtain rfl := List.length_eq_zero_iff.mp same.symm
    rfl
  | cons name names ih =>
    cases values with
    | nil => simp at same
    | cons value values =>
      obtain ⟨fresh, nodup⟩ := List.nodup_cons.mp nodup
      simp only [List.zip_cons_cons, List.map_cons, List.lookup_cons_self]
      congr 1
      rw [← ih nodup (by simpa using same)]
      refine List.map_congr_left fun f hf => ?_
      have other : (some f == some name) = false := by
        simpa using fun e : f = name => fresh (e ▸ hf)
      simp [List.lookup_cons, other]

/-- A record that is written with its fields in order is read with all of them. -/
theorem fields?_record (names : List String) (values : List Json) (nodup : names.Nodup)
    (same : names.length = values.length) :
    (record (names.zip values)).fields? names = some (values.map some) := by
  have keys : (names.zip values).map (·.1) = names := List.map_fst_zip (Nat.le_of_eq same)
  have once : (names.all fun f => names.count f ≤ 1) = true := by
    simpa using fun f _ => List.nodup_iff_count_le_one.mp nodup f
  rw [record, fields?, names?_map, keys]
  simp only [Option.bind_eq_bind, Option.bind_some]
  rw [guard, if_pos once]
  exact congrArg some (map_lookup_zip nodup same)

variable {α : Type} [JsonForm α] [LawfulJsonForm α]

/-- A field that is there is read back. -/
@[simp]
theorem required?_toJson (a : α) : required? (some (toJson a)) = some a := by
  simp [required?]

/-- A field that may be absent is read as what it is written as. The document of a value that is
there must not be the one of its absence. -/
theorem optional?_toJson (present : ∀ a : α, toJson a ≠ .null) (o : Option α) :
    optional? (some (toJson o)) = some o := by
  cases o with
  | none => rfl
  | some a =>
    have read : ofJson? (α := α) (toJson a) = some a := LawfulJsonForm.ofJson?_toJson a
    simp only [optional?, Option.getD_some, ofJson?]
    split
    · next e => exact absurd e (present a)
    · exact congrArg (Option.map some) read

/-! ## Variants -/

/-- A name is found where no two have the same. -/
theorem find?_name {β : Type} {all : List β} {name : β → String} (nodup : (all.map name).Nodup)
    {b : β} (mem : b ∈ all) : all.find? (name · = name b) = some b := by
  induction all with
  | nil => cases mem
  | cons a all ih =>
    obtain ⟨fresh, nodup⟩ := List.nodup_cons.mp nodup
    obtain rfl | mem := List.mem_cons.mp mem
    · simp
    · have other : name a ≠ name b := fun e => fresh (e ▸ List.mem_map_of_mem mem)
      simpa [other] using ih nodup mem

/-- A variant without content is read as the one with its name. -/
theorem oneOf?_plain {β : Type} {all : List β} {name : β → String}
    (nodup : (all.map name).Nodup) {b : β} (mem : b ∈ all) :
    oneOf? all name (plain (name b)) = some b := by
  exact find?_name nodup mem

end Json

end X86Asm
