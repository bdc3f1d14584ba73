import Mathlib.Tactic.IntervalCases
import X86Asm.Proofs.NameTable
import X86Asm.Proofs.Program.Numbering

/-!
# Names of labels and sections

A label or section keeps the number that the name table gave out for its name. Until the program is
cleared the table only grows, so the number goes on to lead to that name, whatever names other
labels and sections have (`Naming.Grows`). A name is looked up by its number, and the first label
that has it is the one with the least number (`findLabel?_eq_some_iff`).

So names are told of labels and sections as they were given, for every run of operations
(`tellsNames_run`).
-/

namespace X86Asm.Program

variable {p p' : Program} {op : Operation} {ops : List Operation} {mode : Mode} {kind : Numbered}
  {l : Label} {s : Section} {id : UInt32} {name : Option String} {n : Nat}

/-- The name that a call gives to what it creates. -/
def Operation.name? : Operation → Option String
  | createNamedLabel name | createSection name _ _ => some name
  | _ => none

/-! ## What is kept of a name -/

namespace Naming

variable {t t' : Naming}

/-- The number that is kept of the name of what has a number. -/
def tag? (t : Naming) (kind : Numbered) (id : UInt32) : Option (Option NameId) :=
  match kind with
  | .labels => lookup? t.firstLabel t.labels id
  | .sections => (lookup? t.firstSection t.sections id).map some

/-- What has the number was given the name. -/
inductive Keeps (t : Naming) (kind : Numbered) (id : UInt32) : Option String → Prop
  | anonymous : t.tag? kind id = some none → Keeps t kind id none
  | named {k : NameId} {name : String} :
      t.tag? kind id = some (some k) → t.names.get? k = some name → Keeps t kind id (some name)

/-- Nothing that was known of names is lost. -/
structure Grows (t t' : Naming) : Prop where
  tag?_kept : ∀ kind id tag, t.tag? kind id = some tag → t'.tag? kind id = some tag
  get?_kept : ∀ k name, t.names.get? k = some name → t'.names.get? k = some name
  valid : t.names.Valid → t'.names.Valid
  size_le : t.names.size ≤ t'.names.size

/-- Nothing is lost where nothing happens. -/
theorem Grows.refl (t : Naming) : t.Grows t where
  tag?_kept _ _ _ h := h
  get?_kept _ _ h := h
  valid h := h
  size_le := Nat.le_refl _

/-- What is kept twice in a row is kept. -/
theorem Grows.trans (h : t.Grows t') {u : Naming} (h' : t'.Grows u) : t.Grows u where
  tag?_kept _ _ _ htag := h'.tag?_kept _ _ _ (h.tag?_kept _ _ _ htag)
  get?_kept _ _ hget := h'.get?_kept _ _ (h.get?_kept _ _ hget)
  valid ht := h'.valid (h.valid ht)
  size_le := Nat.le_trans h.size_le h'.size_le

/-- Interning a name takes nothing from the names that are known. -/
theorem grows_intern (t : Naming) (name : String) :
    t.Grows { t with names := (t.names.intern name).2 } where
  tag?_kept _ _ _ h := h
  get?_kept _ _ h := NameTable.get?_intern_of_get? h
  valid h := h.intern name
  size_le := t.names.size_le_intern name

/-- A name that was given stays. -/
theorem Grows.keeps (h : t.Grows t') (ht : t.Keeps kind id name) : t'.Keeps kind id name := by
  cases ht with
  | anonymous htag => exact .anonymous (h.tag?_kept _ _ _ htag)
  | named htag hget => exact .named (h.tag?_kept _ _ _ htag) (h.get?_kept _ _ hget)

end Naming

/-- Changing all entries of a table changes the one that is looked up. -/
theorem lookup?_map {α β : Type} (f : α → β) (first : UInt32) (entries : Array α) (id : UInt32) :
    lookup? first (entries.map f) id = (lookup? first entries id).map f := by
  unfold lookup?
  rw [Array.size_map, Option.map_bind]
  simp only [Function.comp_def, Array.getElem?_map]

/-- What is kept of the name of a label stands in its entry. -/
theorem tag?_label (p : Program) (l : Label) :
    p.naming.tag? .labels l.id = (p.label? l).map (·.name) :=
  lookup?_map ..

/-- What is kept of the name of a section stands in its entry. -/
theorem tag?_section (p : Program) (s : Section) :
    p.naming.tag? .sections s.id = (p.section? s).map fun e => some e.name := by
  have hname := lookup?_map SectionEntry.name p.firstSection p.sections s.id
  rw [Naming.tag?, naming, hname, Option.map_map]
  rfl

/-- The name of a label is the one that it was given. -/
theorem labelName?_of_keeps (h : p.naming.Keeps .labels l.id name) : p.labelName? l = name := by
  cases h with
  | anonymous htag =>
    rw [tag?_label, Option.map_eq_some_iff] at htag
    obtain ⟨e, he, hnone⟩ := htag
    rw [labelName?, he, Option.bind_some, hnone]
    rfl
  | named htag hget =>
    rw [tag?_label, Option.map_eq_some_iff] at htag
    obtain ⟨e, he, hk⟩ := htag
    rw [labelName?, he, Option.bind_some, hk]
    exact hget

/-- The name of a section is the one that it was given. -/
theorem sectionName?_of_keeps (h : p.naming.Keeps .sections s.id name) :
    p.sectionName? s = name := by
  cases h with
  | anonymous htag =>
    rw [tag?_section, Option.map_eq_some_iff] at htag
    obtain ⟨e, -, hnone⟩ := htag
    cases hnone
  | named htag hget =>
    rw [tag?_section, Option.map_eq_some_iff] at htag
    obtain ⟨e, he, hk⟩ := htag
    cases hk
    rw [sectionName?, he]
    exact hget

/-! ## What a call does to the names -/

/-- A number that follows those in use takes nothing from the others. -/
theorem lookup?_push_kept {α : Type} {first : UInt32} {entries : Array α} {e e' : α}
    (h : lookup? first entries id = some e) : lookup? first (entries.push e') id = some e := by
  rw [lookup?_push, if_neg, h]
  rintro ⟨-, hlast⟩
  cases (lookup?_eq_none_of_next hlast).symm.trans h

/-- The number that follows those in use is that of the new entry. -/
theorem lookup?_push_self {α : Type} {first : UInt32} {entries : Array α} (e : α)
    (h : id.toNat = first.toNat + entries.size) : lookup? first (entries.push e) id = some e := by
  rw [lookup?_push, if_pos]
  rw [UInt32.le_iff_toNat_le]
  omega

/-- A new label takes nothing from the names that are known. -/
theorem grows_pushLabel (tag : Option NameId) (p : Program) :
    p.naming.Grows (pushLabel tag p).2.naming := by
  rcases hpush : pushLabel tag p with ⟨r, p'⟩
  cases r with
  | error e =>
    obtain ⟨-, rfl⟩ := pushLabel_eq_error hpush
    exact .refl _
  | ok l =>
    obtain ⟨-, -, rfl⟩ := pushLabel_eq_ok hpush
    refine ⟨fun kind id tag htag => ?_, fun _ _ h => h, fun h => h, Nat.le_refl _⟩
    cases kind with
    | labels =>
      rw [Naming.tag?, naming, Array.map_push]
      exact lookup?_push_kept htag
    | sections => exact htag

/-- A new section takes nothing from the names that are known. -/
theorem grows_createSection (name : String) (flags : SectionFlags) (alignment : UInt32)
    (p : Program) : p.naming.Grows (createSection name flags alignment p).2.naming := by
  rcases hcreate : createSection name flags alignment p with ⟨r, p'⟩
  cases r with
  | error e =>
    obtain rfl := createSection_eq_error hcreate
    exact .refl _
  | ok s =>
    obtain ⟨-, -, rfl⟩ := createSection_eq_ok hcreate
    refine (Naming.grows_intern p.naming name).trans ?_
    refine ⟨fun kind id tag htag => ?_, fun _ _ h => h, fun h => h, Nat.le_refl _⟩
    cases kind with
    | labels => exact htag
    | sections =>
      obtain ⟨k, hk, rfl⟩ := Option.map_eq_some_iff.mp htag
      rw [Naming.tag?, naming, Array.map_push, Option.map_eq_some_iff]
      exact ⟨k, lookup?_push_kept hk, rfl⟩

/-- Until the program is cleared, no name is lost. -/
theorem grows_apply (hclear : op ≠ .clear) (p : Program) :
    p.naming.Grows (op.apply p).naming := by
  by_cases hcreates : op.creates = true
  · cases op with
    | createLabel => exact grows_pushLabel none p
    | createNamedLabel name =>
      exact (Naming.grows_intern p.naming name).trans
        (grows_pushLabel _ { p with names := (p.names.intern name).2 })
    | createSection name flags alignment => exact grows_createSection name flags alignment p
    | _ => cases hcreates
  · rw [op.naming_apply (Bool.eq_false_iff.mpr hcreates) hclear]
    exact .refl _

/-- Only labels are issued by what returns a label. -/
theorem Numbered.issued?_newLabel {r : Except Error Label}
    (h : kind.issued? (.newLabel <$> r) = some id) : kind = .labels ∧ r = .ok ⟨id⟩ := by
  cases r with
  | error e => cases kind <;> cases h
  | ok l =>
    cases kind with
    | labels =>
      cases h
      exact ⟨rfl, rfl⟩
    | sections => cases h

/-- Only sections are issued by what returns a section. -/
theorem Numbered.issued?_newSection {r : Except Error Section}
    (h : kind.issued? (.newSection <$> r) = some id) : kind = .sections ∧ r = .ok ⟨id⟩ := by
  cases r with
  | error e => cases kind <;> cases h
  | ok s =>
    cases kind with
    | labels => cases h
    | sections =>
      cases h
      exact ⟨rfl, rfl⟩

/-- A new label has what it was created with for a name. -/
theorem tag?_pushLabel {tag : Option NameId} (h : pushLabel tag p = (.ok l, p')) :
    p'.naming.tag? .labels l.id = some tag ∧ p'.names = p.names := by
  obtain ⟨-, hid, rfl⟩ := pushLabel_eq_ok h
  refine ⟨?_, rfl⟩
  rw [tag?_label, label?_eq, lookup?_push_self _ hid]
  rfl

/-- A new section has the number of its name. -/
theorem tag?_createSection {name : String} {flags : SectionFlags} {alignment : UInt32}
    (h : createSection name flags alignment p = (.ok s, p')) :
    p'.naming.tag? .sections s.id = some (some (p.names.intern name).1) ∧
      p'.names = (p.names.intern name).2 := by
  obtain ⟨-, hid, rfl⟩ := createSection_eq_ok h
  refine ⟨?_, rfl⟩
  rw [tag?_section, section?_eq, lookup?_push_self _ hid]
  rfl

/-- What a call creates has the name that it is given, as long as there are enough numbers for
names. -/
theorem keeps_of_issued (hnames : p.names.Valid) (hsize : (op.apply p).names.size ≤ 4294967296)
    (hid : kind.issued? (op.answer p) = some id) :
    (op.apply p).naming.Keeps kind id op.name? := by
  -- while numbers do not come round, a name is found under the number it was given
  have hget {q : Program} {name : String} (hq : q.names = (p.names.intern name).2)
      (hsize : q.names.size ≤ 4294967296) :
      q.naming.names.get? (p.names.intern name).1 = some name := by
    rw [hq] at hsize
    rw [naming, hq, (hnames.intern name).get?_eq_some_iff hsize]
    exact p.names.find?_intern name
  cases op with
  | createLabel =>
    obtain ⟨rfl, hr⟩ := Numbered.issued?_newLabel hid
    exact .anonymous (tag?_pushLabel (Prod.ext hr rfl)).1
  | createNamedLabel name =>
    obtain ⟨rfl, hr⟩ := Numbered.issued?_newLabel hid
    obtain ⟨htag, hq⟩ := tag?_pushLabel (Prod.ext hr rfl)
    exact .named htag (hget hq hsize)
  | createSection name flags alignment =>
    obtain ⟨rfl, hr⟩ := Numbered.issued?_newSection hid
    obtain ⟨htag, hq⟩ := tag?_createSection (Prod.ext hr rfl)
    exact .named htag (hget hq hsize)
  | _ => cases (kind.issued?_of_not_creates rfl p).symm.trans hid

/-! ## Looking for a name -/

/-- The numbers of the entries go up by one from the first. -/
theorem lookup?_eq_some_iff {α : Type} {first : UInt32} {entries : Array α} {e : α} :
    lookup? first entries id = some e ↔
      ∃ i : Nat, entries[i]? = some e ∧ id.toNat = first.toNat + i := by
  unfold lookup? index?
  split
  · rename_i h
    have hle := UInt32.le_iff_toNat_le.mp h.1
    rw [Option.bind_some]
    constructor
    · intro he
      exact ⟨_, he, by omega⟩
    · rintro ⟨i, he, hid⟩
      rwa [hid, Nat.add_sub_cancel_left]
  · rename_i h
    -- a number that is out of range is no first number plus an index
    refine iff_of_false nofun ?_
    rintro ⟨i, he, hid⟩
    obtain ⟨hlt, -⟩ := Array.getElem?_eq_some_iff.mp he
    refine h ⟨?_, by omega⟩
    rw [UInt32.le_iff_toNat_le]
    omega

/-- The labels of a name are those that keep its number. -/
theorem labelName?_eq_some_iff (hnames : p.names.Valid) (hsize : p.names.size ≤ 4294967296)
    {name : String} : p.labelName? l = some name ↔
      ∃ k, p.names.find? name = some k ∧
        ∃ (i : Nat) (e : LabelEntry), p.labels[i]? = some e ∧ e.name = some k ∧
          l.id.toNat = p.firstLabel.toNat + i := by
  simp only [labelName?, Option.bind_eq_some_iff, hnames.get?_eq_some_iff hsize, label?_eq,
    lookup?_eq_some_iff]
  constructor
  · rintro ⟨k, ⟨e, ⟨i, he, hl⟩, hk⟩, hfind⟩
    exact ⟨k, hfind, i, e, he, hk, hl⟩
  · rintro ⟨k, hfind, i, e, he, hk, hl⟩
    exact ⟨k, ⟨e, ⟨i, he, hl⟩, hk⟩, hfind⟩

/-- The label that is found under a name is the first that has it. -/
theorem findLabel?_eq_some_iff (hnames : p.names.Valid) (hsize : p.names.size ≤ 4294967296)
    (hrange : (p.numbers .labels).InRange) {name : String} : p.findLabel? name = some l ↔
      p.labelName? l = some name ∧ ∀ k, p.labelName? k = some name → l.id ≤ k.id := by
  have hnumber {i : Nat} (hi : i < p.labels.size) :
      (p.firstLabel + UInt32.ofNat i).toNat = p.firstLabel.toNat + i := by
    have hnext : p.firstLabel.toNat + p.labels.size ≤ 4294967295 := hrange
    exact toNat_add_ofNat (by omega)
  have hfound : p.findLabel? name = some l ↔ ∃ k, p.names.find? name = some k ∧
      ∃ i, p.labels.findIdx? (·.name = some k) = some i ∧
        (⟨p.firstLabel + UInt32.ofNat i⟩ : Label) = l := by
    simp only [findLabel?, bind, Option.bind_eq_some_iff, pure, Option.some.injEq]
  simp only [hfound, labelName?_eq_some_iff hnames hsize, Array.findIdx?_eq_some_iff_getElem,
    decide_eq_true_eq]
  constructor
  · rintro ⟨k, hfind, i, ⟨hi, hk, hleast⟩, rfl⟩
    refine ⟨⟨k, hfind, i, _, Array.getElem?_eq_getElem hi, hk, hnumber hi⟩, ?_⟩
    rintro other ⟨k', hfind', j, e, he, hk', hj⟩
    obtain rfl := Option.some.inj (hfind.symm.trans hfind')
    obtain ⟨hlt, rfl⟩ := Array.getElem?_eq_some_iff.mp he
    have hij : i ≤ j := Nat.le_of_not_lt fun hji => hleast j hji hk'
    rw [UInt32.le_iff_toNat_le, hnumber hi, hj]
    exact Nat.add_le_add_left hij _
  · rintro ⟨⟨k, hfind, i, e, he, hk, hl⟩, hleast⟩
    obtain ⟨hi, rfl⟩ := Array.getElem?_eq_some_iff.mp he
    refine ⟨k, hfind, i, ⟨hi, hk, fun j hji hj => ?_⟩, ?_⟩
    · -- an earlier label of the name would have a lesser number
      have hlt := Nat.lt_trans hji hi
      have hle := hleast ⟨p.firstLabel + UInt32.ofNat j⟩
        ⟨k, hfind, j, _, Array.getElem?_eq_getElem hlt, hj, hnumber hlt⟩
      rw [UInt32.le_iff_toNat_le, hnumber hlt] at hle
      omega
    · refine Label.ext (UInt32.toNat_inj.mp ?_)
      rw [hnumber hi, hl]

/-! ## Runs -/

/-- The name table is valid along a run. -/
theorem valid_names_run (mode : Mode) (ops : List Operation) (hn : n ≤ ops.length) :
    (run mode ops n).names.Valid := by
  induction n with
  | zero => exact NameTable.valid_empty
  | succ n ih =>
    have hop := List.getElem?_eq_getElem hn
    rw [run_succ mode hop]
    by_cases hclear : ops[n] = .clear
    · rw [hclear]
      exact NameTable.valid_empty
    · exact (grows_apply hclear _).valid (ih (Nat.le_of_lt hn))

/-- A name that was given to a label or section stays until the program is cleared. -/
theorem keeps_of_issuedBy (hn : n ≤ ops.length)
    (hsize : (run mode ops n).names.size ≤ 4294967296) (h : IssuedBy kind mode ops n id op) :
    (run mode ops n).naming.Keeps kind id op.name? := by
  obtain ⟨i, hin, hop, hid, hkept⟩ := h
  induction hin with
  | refl =>
    rw [run_succ mode hop] at hsize ⊢
    exact keeps_of_issued (valid_names_run mode ops (Nat.le_of_lt hn)) hsize hid
  | @step n hin ih =>
    have hnext := List.getElem?_eq_getElem hn
    have hclear : ops[n] ≠ .clear := fun hclear =>
      hkept ⟨n, hin, Nat.lt_succ_self n, hclear ▸ hnext⟩
    have hgrows := grows_apply hclear (run mode ops n)
    rw [run_succ mode hnext] at hsize ⊢
    refine hgrows.keeps (ih (Nat.le_of_lt hn) (Nat.le_trans hgrows.size_le hsize) ?_)
    rintro ⟨c, hic, hcn, hc⟩
    exact hkept ⟨c, hic, Nat.lt_succ_of_lt hcn, hc⟩

/-- The names that a run tells of labels and sections are those that they were given since it was
last cleared. -/
structure TellsNames (mode : Mode) (ops : List Operation) (n : Nat) : Prop where
  labelName?_eq : ∀ (l : Label) (op : Operation), IssuedBy .labels mode ops n l.id op →
    (run mode ops n).labelName? l = op.name?
  labelName?_eq_none : ∀ l : Label, (∀ op, ¬ IssuedBy .labels mode ops n l.id op) →
    (run mode ops n).labelName? l = none
  sectionName?_eq : ∀ (s : Section) (op : Operation), IssuedBy .sections mode ops n s.id op →
    (run mode ops n).sectionName? s = op.name?
  sectionName?_eq_none : ∀ s : Section, (∀ op, ¬ IssuedBy .sections mode ops n s.id op) →
    (run mode ops n).sectionName? s = none
  findLabel?_eq_some_iff : ∀ (name : String) (l : Label),
    (run mode ops n).findLabel? name = some l ↔
      IssuedBy .labels mode ops n l.id (.createNamedLabel name) ∧
        ∀ k : Label, IssuedBy .labels mode ops n k.id (.createNamedLabel name) → l.id ≤ k.id

/-- A label that was not created since the program was last cleared has no name. -/
theorem labelName?_eq_none_of_not_issued (hn : n ≤ ops.length)
    (hl : ∀ op, ¬ IssuedBy .labels mode ops n l.id op) :
    (run mode ops n).labelName? l = none := by
  have hnone : ¬ ((run mode ops n).label? l).isSome := by
    rw [← ownsLabel_eq, ownsLabel_iff, owns_iff_issuedBy hn, not_exists]
    exact hl
  rw [labelName?, Option.not_isSome_iff_eq_none.mp hnone]
  rfl

/-- A section that was not created since the program was last cleared has no name. -/
theorem sectionName?_eq_none_of_not_issued (hn : n ≤ ops.length)
    (hs : ∀ op, ¬ IssuedBy .sections mode ops n s.id op) :
    (run mode ops n).sectionName? s = none := by
  have hnone : ¬ ((run mode ops n).section? s).isSome := by
    rw [section?_isSome_iff, owns_iff_issuedBy hn, not_exists]
    exact hs
  rw [sectionName?, Option.not_isSome_iff_eq_none.mp hnone]
  rfl

/-- A call that creates a label with a name is one that is made to. -/
theorem IssuedBy.eq_createNamedLabel {name : String} (h : IssuedBy .labels mode ops n id op)
    (hname : op.name? = some name) : op = .createNamedLabel name := by
  obtain ⟨i, -, -, hid, -⟩ := h
  cases op with
  | createNamedLabel other =>
    cases hname
    rfl
  | createSection other flags alignment => cases (Numbered.issued?_newSection hid).1
  | _ => cases hname

/-- A label has a name if it was created with it. -/
theorem labelName?_eq_some_iff_issuedBy (hn : n ≤ ops.length)
    (hsize : (run mode ops n).names.size ≤ 4294967296) {name : String} :
    (run mode ops n).labelName? l = some name ↔
      IssuedBy .labels mode ops n l.id (.createNamedLabel name) := by
  constructor
  · intro hname
    by_cases hissued : ∃ op, IssuedBy .labels mode ops n l.id op
    · obtain ⟨op, hop⟩ := hissued
      have hkeeps := labelName?_of_keeps (keeps_of_issuedBy hn hsize hop)
      exact hop.eq_createNamedLabel (hkeeps.symm.trans hname) ▸ hop
    · rw [labelName?_eq_none_of_not_issued hn (not_exists.mp hissued)] at hname
      cases hname
  · intro hissued
    exact labelName?_of_keeps (keeps_of_issuedBy hn hsize hissued)

/-- **Names are told as they were given.** A name table finds every name under one number, and a
number leads back to its name exactly as long as there are enough numbers.

Numbers of names are 32 bits wide. So let at most 2 ^ 32 different names be in the table of the
program, which are the names that were given since it was cleared last. Then labels and sections
have the names that they were created with, however names are shared and programs are cleared, and
the label that is found under a name is the first that was created with it since. -/
theorem tellsNames_run :
    (∀ calls, (NameTable.run calls).Knows (NameTable.entered calls)) ∧
      ∀ (mode : Mode) (ops : List Operation) (n : Nat), n ≤ ops.length →
        (run mode ops n).names.size ≤ 4294967296 → TellsNames mode ops n := by
  refine ⟨fun calls => (NameTable.run_knows calls).2, fun mode ops n hn hsize => ?_⟩
  have hfind (name : String) (l : Label) : (run mode ops n).findLabel? name = some l ↔
      (run mode ops n).labelName? l = some name ∧
        ∀ k, (run mode ops n).labelName? k = some name → l.id ≤ k.id :=
    findLabel?_eq_some_iff (valid_names_run mode ops hn) hsize (inRange_run .labels mode hn)
  simp only [labelName?_eq_some_iff_issuedBy hn hsize] at hfind
  exact {
    labelName?_eq := fun l op h => labelName?_of_keeps (keeps_of_issuedBy hn hsize h)
    labelName?_eq_none := fun l => labelName?_eq_none_of_not_issued hn
    sectionName?_eq := fun s op h => sectionName?_of_keeps (keeps_of_issuedBy hn hsize h)
    sectionName?_eq_none := fun s => sectionName?_eq_none_of_not_issued hn
    findLabel?_eq_some_iff := hfind }

/-- Two labels and a section share a name, in a program that was cleared. -/
def sharedName : List Operation :=
  [.createNamedLabel "start", .clear, .createSection "text" .code 16, .createLabel,
    .createNamedLabel "text", .createNamedLabel "start", .createNamedLabel "text"]

/-- The label of the name is the first of the two. -/
theorem tellsNames_sharedName :
    (run .long64 sharedName 7).names.size ≤ 4294967296 ∧
      (run .long64 sharedName 7).findLabel? "text" = some ⟨2⟩ ∧
      (run .long64 sharedName 7).labelName? ⟨1⟩ = none ∧
      (run .long64 sharedName 7).labelName? ⟨3⟩ = some "start" ∧
      (run .long64 sharedName 7).sectionName? ⟨0⟩ = some "text" := by
  have hsize : (run .long64 sharedName 7).names.size ≤ 4294967296 := by decide +kernel
  have htells := tellsNames_run.2 .long64 sharedName 7 (by decide) hsize
  have hissued {kind : Numbered} {id : UInt32} {op : Operation} (i : Nat) (hi : 1 < i ∧ i < 7)
      (hop : sharedName[i]? = some op)
      (hid : kind.issued? (op.answer (run .long64 sharedName i)) = some id) :
      IssuedBy kind .long64 sharedName 7 id op := by
    refine ⟨i, hi.2, hop, hid, ?_⟩
    rintro ⟨c, hic, hcn, hc⟩
    have hlate : 1 < c := by omega
    interval_cases c <;> cases hc
  refine ⟨hsize, (htells.findLabel?_eq_some_iff _ _).mpr ⟨?_, fun k hk => ?_⟩, ?_, ?_, ?_⟩
  · exact hissued 4 (by decide) rfl (by decide +kernel)
  · -- the calls that create a label of the name
    obtain ⟨i, hi, hop, hid, -⟩ := hk
    interval_cases i <;> simp [sharedName] at hop
    · have hfirst : Numbered.labels.issued? (Operation.answer (run .long64 sharedName 4)
          (.createNamedLabel "text")) = some 2 := by decide +kernel
      rw [← Option.some.inj (hfirst.symm.trans hid)]
      exact UInt32.le_refl _
    · have hsecond : Numbered.labels.issued? (Operation.answer (run .long64 sharedName 6)
          (.createNamedLabel "text")) = some 4 := by decide +kernel
      rw [← Option.some.inj (hsecond.symm.trans hid)]
      decide
  · exact htells.labelName?_eq _ .createLabel (hissued 3 (by decide) rfl (by decide +kernel))
  · exact htells.labelName?_eq _ (.createNamedLabel "start")
      (hissued 5 (by decide) rfl (by decide +kernel))
  · exact htells.sectionName?_eq _ (.createSection "text" .code 16)
      (hissued 2 (by decide) rfl (by decide +kernel))

end X86Asm.Program
