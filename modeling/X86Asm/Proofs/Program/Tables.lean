import X86Asm.Program.Edit

/-!
# The tables of labels and sections under an edit

What a program knows about labels and sections is asked through `Program.label?` and
`Program.section?`. Linking nodes leaves both alone; recording a place changes the one entry that
the node is about; a new label or section adds an entry that no node places.
-/

namespace X86Asm.Program

variable {α : Type} {p : Program} {l : Label} {s : Section} {node : Node}

/-! ## Tables that are numbered from some number on -/

/-- The place of a number in a table of `size` entries that are numbered from `first` on. -/
def index? (first : UInt32) (size : Nat) (id : UInt32) : Option Nat :=
  if first ≤ id ∧ id.toNat - first.toNat < size then some (id.toNat - first.toNat) else none

/-- The entry with a number in a table that is numbered from `first` on. -/
def lookup? (first : UInt32) (entries : Array α) (id : UInt32) : Option α :=
  (index? first entries.size id).bind (entries[·]?)

/-- Different numbers have different places in a table. -/
theorem index?_inj {first id k : UInt32} {size i : Nat} (hid : index? first size id = some i)
    (hk : index? first size k = some i) : id = k := by
  unfold index? at hid hk
  split at hid
  · split at hk
    · rename_i h h'
      rw [Option.some.injEq] at hid hk
      have h1 := UInt32.le_iff_toNat_le.mp h.1
      have h2 := UInt32.le_iff_toNat_le.mp h'.1
      exact UInt32.toNat_inj.mp (by omega)
    · cases hk
  · cases hid

/-- Changing the entry of a number changes no other. -/
theorem lookup?_modify {first k : UInt32} {entries : Array α} {i : Nat} (f : α → α)
    (hk : index? first entries.size k = some i) (id : UInt32) :
    lookup? first (entries.modify i f) id =
      if k = id then (lookup? first entries id).map f else lookup? first entries id := by
  unfold lookup?
  rw [Array.size_modify]
  by_cases hid : k = id
  · subst hid
    simp [hk, Array.getElem?_modify]
  · rw [if_neg hid]
    cases h : index? first entries.size id with
    | none => rfl
    | some j =>
      have hne : i ≠ j := fun hc => hid (index?_inj hk (hc ▸ h))
      simp [Array.getElem?_modify, hne]

/-- A new entry has the number that follows those in use. -/
theorem lookup?_push (first : UInt32) (entries : Array α) (e : α) (id : UInt32) :
    lookup? first (entries.push e) id =
      if first ≤ id ∧ id.toNat - first.toNat = entries.size then some e
      else lookup? first entries id := by
  unfold lookup? index?
  rw [Array.size_push]
  by_cases hle : first ≤ id
  · rcases Nat.lt_trichotomy (id.toNat - first.toNat) entries.size with h | h | h
    · rw [if_pos ⟨hle, Nat.lt_succ_of_lt h⟩, if_neg fun hc => Nat.ne_of_lt h hc.2,
        if_pos ⟨hle, h⟩]
      simp [Array.getElem?_push, Nat.ne_of_lt h]
    · simp [hle, h]
    · rw [if_neg fun hc => absurd hc.2 (by omega), if_neg fun hc => Nat.ne_of_gt h hc.2,
        if_neg fun hc => absurd hc.2 (by omega)]
      rfl
  · simp [hle]

/-- The number that follows those in use has no entry. -/
theorem lookup?_eq_none_of_next {first id : UInt32} {entries : Array α}
    (h : id.toNat - first.toNat = entries.size) : lookup? first entries id = none := by
  simp [lookup?, index?, h]

/-! ## Labels and sections -/

/-- Labels are looked up in a table that is numbered from the first label on. -/
theorem label?_eq (p : Program) (l : Label) : p.label? l = lookup? p.firstLabel p.labels l.id := rfl

/-- Sections are looked up in a table that is numbered from the first section on. -/
theorem section?_eq (p : Program) (s : Section) :
    p.section? s = lookup? p.firstSection p.sections s.id := rfl

/-- The labels of a program are those that have an entry. -/
theorem ownsLabel_eq (p : Program) (l : Label) : p.ownsLabel l = (p.label? l).isSome := by
  unfold ownsLabel label? labelIndex?
  split
  · rename_i h
    simp [Array.getElem?_eq_getElem h.2]
  · rfl

/-! ## Links -/

/-- Setting what follows a node leaves the labels. -/
@[simp] theorem label?_setNext (p : Program) (prev next : Option NodeId) (l : Label) :
    (p.setNext prev next).label? l = p.label? l := by
  cases prev <;> rfl

/-- Setting what precedes a node leaves the labels. -/
@[simp] theorem label?_setPrev (p : Program) (next prev : Option NodeId) (l : Label) :
    (p.setPrev next prev).label? l = p.label? l := by
  cases next <;> rfl

/-- Setting what follows a node leaves the sections. -/
@[simp] theorem section?_setNext (p : Program) (prev next : Option NodeId) (s : Section) :
    (p.setNext prev next).section? s = p.section? s := by
  cases prev <;> rfl

/-- Setting what precedes a node leaves the sections. -/
@[simp] theorem section?_setPrev (p : Program) (next prev : Option NodeId) (s : Section) :
    (p.setPrev next prev).section? s = p.section? s := by
  cases next <;> rfl

/-- Setting what follows a node leaves the insertion point. -/
@[simp] theorem setNext_insertion (p : Program) (prev next : Option NodeId) :
    (p.setNext prev next).insertion = p.insertion := by
  cases prev <;> rfl

/-- Setting what precedes a node leaves the insertion point. -/
@[simp] theorem setPrev_insertion (p : Program) (next prev : Option NodeId) :
    (p.setPrev next prev).insertion = p.insertion := by
  cases next <;> rfl

/-- Recording a place leaves the insertion point. -/
@[simp] theorem setPlace_insertion (p : Program) (node : Node) (place : Option NodeId) :
    (p.setPlace node place).insertion = p.insertion := by
  unfold setPlace
  split <;> try split
  all_goals rfl

/-! ## Places -/

/-- Recording a place changes what is known about the label that the node places. -/
theorem label?_setPlace (p : Program) (node : Node) (place : Option NodeId) (l : Label) :
    (p.setPlace node place).label? l =
      if node = .label l then (p.label? l).map fun e => { e with node := place }
      else p.label? l := by
  unfold setPlace
  split
  · rename_i k
    simp only [Node.label.injEq, Label.ext_iff]
    split
    · rename_i i hk
      exact lookup?_modify _ hk l.id
    · rename_i hk
      by_cases hkl : k.id = l.id
      · have : k = l := Label.ext hkl
        subst this
        simp [label?, hk]
      · rw [if_neg hkl]
  · rw [if_neg (by simp)]
    split <;> rfl
  · rename_i hl _
    rw [if_neg fun h => hl l h]

/-- Recording a place changes what is known about the section that the node starts. -/
theorem section?_setPlace (p : Program) (node : Node) (place : Option NodeId) (s : Section) :
    (p.setPlace node place).section? s =
      if node = .sectionStart s then (p.section? s).map fun e => { e with node := place }
      else p.section? s := by
  unfold setPlace
  split
  · rw [if_neg (by simp)]
    split <;> rfl
  · rename_i t
    obtain ⟨t⟩ := t
    obtain ⟨s⟩ := s
    simp only [Node.sectionStart.injEq, Section.mk.injEq]
    split
    · rename_i i ht
      exact lookup?_modify _ ht s
    · rename_i ht
      by_cases hts : t = s
      · subst hts
        simp [section?, ht]
      · rw [if_neg hts]
  · rename_i hs
    rw [if_neg fun h => hs s h]

/-! ## Markers

Labels and sections are bound in the same way, by the node that places them. What follows treats
both at once.
-/

/-- Whether what the node places is a label or section of the program. -/
def knows (p : Program) : Node → Bool
  | .label l => (p.label? l).isSome
  | .sectionStart s => (p.section? s).isSome
  | _ => false

/-- The node that is recorded as the place of what a node places. -/
def place? (p : Program) : Node → Option NodeId
  | .label l => p.labelNode? l
  | .sectionStart s => p.sectionNode? s
  | _ => none

/-- Recording a place creates no label or section. -/
theorem knows_setPlace (p : Program) (node : Node) (place : Option NodeId) (m : Node) :
    (p.setPlace node place).knows m = p.knows m := by
  cases m with
  | label l =>
    simp only [knows, label?_setPlace]
    split <;> simp
  | sectionStart s =>
    simp only [knows, section?_setPlace]
    split <;> simp
  | _ => rfl

/-- Recording a place changes the place of that marker only. -/
theorem place?_setPlace (p : Program) (node : Node) (place : Option NodeId) (m : Node) :
    (p.setPlace node place).place? m = if node = m ∧ p.knows m then place else p.place? m := by
  cases m with
  | label l =>
    simp only [place?, labelNode?, label?_setPlace]
    by_cases h : node = .label l
    · cases hl : p.label? l <;> simp [knows, h, hl]
    · rw [if_neg h, if_neg fun hc => h hc.1]
  | sectionStart s =>
    simp only [place?, sectionNode?, section?_setPlace]
    by_cases h : node = .sectionStart s
    · cases hs : p.section? s <;> simp [knows, h, hs]
    · rw [if_neg h, if_neg fun hc => h hc.1]
  | _ => simp [place?, knows]

/-- Linking nodes leaves the tables alone. -/
theorem knows_relink (p : Program) (left right onward back : Option NodeId) (m : Node) :
    ((p.setNext left onward).setPrev right back).knows m = p.knows m := by
  cases m <;> simp [knows]

/-- Relinking leaves all places. -/
theorem place?_relink (p : Program) (left right onward back : Option NodeId) (m : Node) :
    ((p.setNext left onward).setPrev right back).place? m = p.place? m := by
  cases m <;> simp [place?, labelNode?, sectionNode?]

end X86Asm.Program
