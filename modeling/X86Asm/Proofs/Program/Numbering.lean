import X86Asm.Proofs.Program.Refusal
import X86Asm.Proofs.Program.Registry

/-!
# Numbers of labels and sections

Labels and sections are numbered by two counters that only go up. A program keeps the first number
in use and a table of what has the numbers from there on, so the counter stands at the first number
plus the size of the table. Clearing a program drops the table and moves the first number up to the
counter.

What a call does to a counter is said once, in `Numbers.Step`. It follows by induction over the
calls of a run that the numbers come without gaps (`issued_eq_range`), that those issued since the
program was last cleared are in use (`owns_of_issued`), and that older ones are not
(`not_owns_of_issued`). A label or section whose number is not in use is rejected wherever it is
mentioned (`Valid.rejectsLabel`, `Valid.rejectsSection`).
-/

namespace X86Asm.Program

variable {p p' : Program} {op : Operation} {ops : List Operation} {mode : Mode} {node : Node}
  {l : Label} {s : Section} {id : UInt32} {r : Option UInt32} {i n : Nat}

/-! ## Counters -/

/-- The numbers in use are the `count` numbers from `first` on. -/
structure Numbers where
  first : UInt32
  count : Nat

/-- What has numbers. -/
inductive Numbered where
  | labels
  | sections

/-- The numbers in use for labels or sections. -/
def numbers (p : Program) : Numbered → Numbers
  | .labels => ⟨p.firstLabel, p.labels.size⟩
  | .sections => ⟨p.firstSection, p.sections.size⟩

/-- The number of what is created by a call that returns this. -/
def Numbered.issued? : Numbered → Except Error Operation.Answer → Option UInt32
  | labels, .ok (.newLabel l) => some l.id
  | sections, .ok (.newSection s) => some s.id
  | _, _ => none

namespace Numbers

variable {t t' : Numbers}

/-- The number behind those in use. -/
def next (t : Numbers) : Nat := t.first.toNat + t.count

/-- The number is in use. -/
def Owns (t : Numbers) (id : UInt32) : Prop := t.first ≤ id ∧ id.toNat < t.next

/-- The greatest number is not used, and is what the counter stops at. -/
def InRange (t : Numbers) : Prop := t.next ≤ 0xFFFFFFFF

/-- What a call does to the numbers in use, and the number that it issues. -/
inductive Step (t t' : Numbers) : Operation → Option UInt32 → Prop
  /-- The number behind those in use is issued. -/
  | issued {op : Operation} {id : UInt32} :
      op ≠ .clear → t.next < 0xFFFFFFFF → id.toNat = t.next → t' = ⟨t.first, t.count + 1⟩ →
      Step t t' op (some id)
  /-- Those in use are dropped, and the counter stays. -/
  | cleared : t'.first.toNat = min t.next 0xFFFFFFFF → t'.count = 0 → Step t t' .clear none
  /-- Nothing else touches the numbers. -/
  | kept {op : Operation} : op ≠ .clear → t' = t → Step t t' op none

namespace Step

/-- What is issued is in use afterwards. -/
theorem of_some (h : Step t t' op (some id)) :
    id.toNat = t.next ∧ t'.next = t.next + 1 ∧ t'.InRange ∧ t'.Owns id := by
  cases h with
  | issued hclear hroom hid ht =>
    subst ht
    have hnext : next ⟨t.first, t.count + 1⟩ = t.next + 1 := rfl
    refine ⟨hid, hnext, ?_, ?_, ?_⟩
    · rw [InRange, hnext]
      omega
    · rw [UInt32.le_iff_toNat_le, hid]
      exact Nat.le_add_right _ _
    · rw [hid, hnext]
      exact Nat.lt_succ_self _

/-- The counter stays where nothing is issued. -/
theorem of_none (h : Step t t' op none) (ht : t.InRange) : t'.next = t.next := by
  cases h with
  | cleared hfirst hcount => rw [next, hfirst, hcount, Nat.add_zero, Nat.min_eq_left ht]
  | kept _ hsame => rw [hsame]

/-- The counter stops at the greatest number. -/
theorem inRange (h : Step t t' op r) (ht : t.InRange) : t'.InRange := by
  cases r with
  | none =>
    rw [InRange, h.of_none ht]
    exact ht
  | some id => exact h.of_some.2.2.1

/-- The counter does not go back. -/
theorem next_le (h : Step t t' op r) (ht : t.InRange) : t.next ≤ t'.next := by
  cases r with
  | none => exact Nat.le_of_eq (h.of_none ht).symm
  | some id => exact h.of_some.2.1 ▸ Nat.le_succ _

/-- Nor does the first number in use. -/
theorem first_le (h : Step t t' op r) (ht : t.InRange) : t.first.toNat ≤ t'.first.toNat := by
  cases h with
  | issued _ _ _ hsame => exact hsame ▸ Nat.le_refl _
  | cleared hfirst _ =>
    rw [hfirst, Nat.min_eq_left ht]
    exact Nat.le_add_right _ _
  | kept _ hsame => exact hsame ▸ Nat.le_refl _

/-- Clearing a program moves the first number in use up to the counter. -/
theorem first_of_clear (h : Step t t' .clear r) (ht : t.InRange) : t'.first.toNat = t.next := by
  cases h with
  | issued hclear _ _ _ => exact absurd rfl hclear
  | cleared hfirst _ => rw [hfirst, Nat.min_eq_left ht]
  | kept hclear _ => exact absurd rfl hclear

/-- Only clearing the program puts a number out of use. -/
theorem owns (h : Step t t' op r) (hclear : op ≠ .clear) (hid : t.Owns id) : t'.Owns id := by
  cases h with
  | issued _ _ _ hsame =>
    subst hsame
    exact ⟨hid.1, Nat.lt_succ_of_lt hid.2⟩
  | cleared _ _ => exact absurd rfl hclear
  | kept _ hsame => exact hsame ▸ hid

/-- A number that is in use is issued by the call or was in use. -/
theorem owns_cases (h : Step t t' op r) (hid : t'.Owns id) :
    r = some id ∨ op ≠ .clear ∧ t.Owns id := by
  obtain ⟨hfirst, hlt⟩ := hid
  cases h with
  | @issued op new hclear _ hnew hsame =>
    subst hsame
    rcases Nat.lt_succ_iff_lt_or_eq.mp hlt with hlt | hlast
    · exact .inr ⟨hclear, hfirst, hlt⟩
    · refine .inl (congrArg some (UInt32.toNat_inj.mp ?_))
      rw [hnew, hlast]
      rfl
  | cleared _ hcount =>
    rw [UInt32.le_iff_toNat_le] at hfirst
    rw [next, hcount, Nat.add_zero] at hlt
    omega
  | kept hclear hsame => exact .inr ⟨hclear, hsame ▸ ⟨hfirst, hlt⟩⟩

end Step

end Numbers

/-! ## What a call does to the counters -/

/-- What a program knows about labels and sections, apart from the nodes that place them. -/
structure Naming where
  firstLabel : UInt32
  /-- The names of the labels. -/
  labels : Array (Option NameId)
  firstSection : UInt32
  /-- The names of the sections. -/
  sections : Array NameId
  names : NameTable

/-- What the program knows about labels and sections. -/
def naming (p : Program) : Naming where
  firstLabel := p.firstLabel
  labels := p.labels.map (·.name)
  firstSection := p.firstSection
  sections := p.sections.map (·.name)
  names := p.names

/-- The numbers in use can be told from what is known about labels and sections. -/
theorem numbers_of_naming (h : p'.naming = p.naming) (kind : Numbered) :
    p'.numbers kind = p.numbers kind := by
  have hnumbers (p : Program) : p.numbers kind = match kind with
      | .labels => ⟨p.naming.firstLabel, p.naming.labels.size⟩
      | .sections => ⟨p.naming.firstSection, p.naming.sections.size⟩ := by
    cases kind <;> simp [numbers, naming]
  rw [hnumbers, hnumbers, h]

/-- Setting what follows a node changes nothing that is known about labels and sections. -/
@[simp] theorem naming_setNext (p : Program) (prev next : Option NodeId) :
    (p.setNext prev next).naming = p.naming := by
  cases prev <;> rfl

/-- Setting what precedes a node changes nothing that is known about labels and sections. -/
@[simp] theorem naming_setPrev (p : Program) (next prev : Option NodeId) :
    (p.setPrev next prev).naming = p.naming := by
  cases next <;> rfl

/-- Modifying an entry does not change what is the same of it before and after. -/
theorem map_modify_of_eq {α β : Type} (xs : Array α) (i : Nat) {f : α → α} {g : α → β}
    (h : ∀ a, g (f a) = g a) : (xs.modify i f).map g = xs.map g := by
  refine Array.ext_getElem? fun j => ?_
  rw [Array.getElem?_map, Array.getElem?_map, Array.getElem?_modify]
  split
  · rw [Option.map_map]
    exact congrArg (Option.map · _) (funext h)
  · rfl

/-- Recording a place changes nothing else that is known about labels and sections. -/
@[simp] theorem naming_setPlace (p : Program) (node : Node) (place : Option NodeId) :
    (p.setPlace node place).naming = p.naming := by
  unfold setPlace
  split
  · split
    · simp only [naming, map_modify_of_eq, implies_true]
    · rfl
  · split
    · simp only [naming, map_modify_of_eq, implies_true]
    · rfl
  · rfl

/-- Linking a node changes nothing that is known about labels and sections. -/
theorem naming_link (prev : Option NodeId) (node : Node) (p : Program) :
    (link prev node p).2.naming = p.naming := by
  rcases hl : link prev node p with ⟨r, p'⟩
  cases r with
  | error e => rw [link_eq_error hl]
  | ok id =>
    obtain ⟨-, nodes, -, rfl⟩ := link_eq_ok hl
    simp only [naming_setPlace, naming_setPrev, naming_setNext]
    rfl

/-- Moving the insertion point changes nothing that is known about labels and sections. -/
theorem naming_moveBehind (outcome : Except Error NodeId × Program) :
    (moveBehind outcome).2.naming = outcome.2.naming := by
  rcases outcome with ⟨_ | id, q⟩ <;> rfl

/-- Putting a node in behind another changes nothing that is known about labels and sections. -/
theorem naming_insertAfter (position : NodeId) (node : Node) (p : Program) :
    (insertAfter position node p).2.naming = p.naming := by
  unfold insertAfter
  split
  · exact naming_link ..
  · rfl

/-- Putting a node in at the insertion point changes nothing that is known about labels and
sections. -/
theorem naming_emit (node : Node) (p : Program) : (emit node p).2.naming = p.naming := by
  unfold emit
  split
  · exact naming_link ..
  · rw [naming_moveBehind, naming_link]
  · rw [naming_moveBehind, naming_insertAfter]

/-- Only creating labels and sections and clearing change what is known about them. -/
theorem Operation.naming_apply (hcreates : op.creates = false) (hclear : op ≠ .clear)
    (p : Program) : (op.apply p).naming = p.naming := by
  cases op with
  | emit node => exact naming_emit node p
  | emitAddress l => exact naming_emit _ p
  | insertAfter position node => exact naming_insertAfter position node p
  | insertBefore position node =>
    show (Program.insertBefore position node p).2.naming = p.naming
    unfold Program.insertBefore
    split
    · exact naming_link ..
    · rfl
  | setCursor target =>
    show (Program.setCursor target p).2.naming = p.naming
    unfold Program.setCursor
    split <;> try split
    all_goals rfl
  | erase k =>
    show (Program.erase k p).2.naming = p.naming
    rcases he : Program.erase k p with ⟨r, p'⟩
    cases r with
    | error e => rw [erase_eq_error he]
    | ok node =>
      obtain ⟨entry, nodes, -, -, rfl⟩ := erase_eq_ok he
      simp only [naming_setPlace, naming_setPrev, naming_setNext]
      rfl
  | clear => exact absurd rfl hclear
  | _ => cases hcreates

section

variable (kind : Numbered)

/-- What creates nothing issues no number. -/
theorem Numbered.issued?_of_not_creates (hcreates : op.creates = false) (p : Program) :
    kind.issued? (op.answer p) = none := by
  have hmap {α : Type} {f : α → Operation.Answer} (hf : ∀ a, kind.issued? (.ok (f a)) = none)
      (x : Except Error α) : kind.issued? (f <$> x) = none := by
    cases x with
    | error e => cases kind <;> rfl
    | ok a => exact hf a
  cases op with
  | emit node => exact hmap (fun _ => by cases kind <;> rfl) _
  | emitAddress l => exact hmap (fun _ => by cases kind <;> rfl) _
  | insertAfter position node => exact hmap (fun _ => by cases kind <;> rfl) _
  | insertBefore position node => exact hmap (fun _ => by cases kind <;> rfl) _
  | setCursor target => exact hmap (fun _ => by cases kind <;> rfl) _
  | erase k => exact hmap (fun _ => by cases kind <;> rfl) _
  | clear => cases kind <;> rfl
  | _ => cases hcreates

/-- Counting on from the first number does not wrap around. -/
theorem toNat_add_ofNat {first : UInt32} {count : Nat} (h : first.toNat + count < 4294967296) :
    (first + UInt32.ofNat count).toNat = first.toNat + count := by
  have hcount : (UInt32.ofNat count).toNat = count :=
    UInt32.toNat_ofNat_of_lt' (Nat.lt_of_le_of_lt (Nat.le_add_left _ _) h)
  rw [UInt32.toNat_add, hcount]
  exact Nat.mod_eq_of_lt h

/-- The number behind those in use, unless it is the greatest. -/
theorem nextHandle_eq_ok {first : UInt32} {count : Nat} {resource : String}
    (h : nextHandle first count resource = .ok id) :
    first.toNat + count < 0xFFFFFFFF ∧ id.toNat = first.toNat + count := by
  unfold nextHandle at h
  split at h
  · rename_i hroom
    obtain rfl := Except.ok.inj h
    exact ⟨hroom, toNat_add_ofNat (Nat.lt_trans hroom (by decide))⟩
  · cases h

/-- A new label has the number behind those in use, and is added at the end of the table. -/
theorem pushLabel_eq_ok {name : Option NameId} (h : pushLabel name p = (.ok l, p')) :
    p.firstLabel.toNat + p.labels.size < 0xFFFFFFFF ∧
      l.id.toNat = p.firstLabel.toNat + p.labels.size ∧
      p' = { p with labels := p.labels.push { name } } := by
  unfold pushLabel at h
  split at h
  · cases h
  · rename_i id hid
    obtain ⟨hroom, hid⟩ := nextHandle_eq_ok hid
    cases h
    exact ⟨hroom, hid, rfl⟩

/-- A new section has the number behind those in use, and is added at the end of the table under its
name. -/
theorem createSection_eq_ok {name : String} {flags : SectionFlags} {alignment : UInt32}
    (h : createSection name flags alignment p = (.ok s, p')) :
    p.firstSection.toNat + p.sections.size < 0xFFFFFFFF ∧
      s.id.toNat = p.firstSection.toNat + p.sections.size ∧
      p' = { p with
        sections := p.sections.push { name := (p.names.intern name).1, flags, alignment }
        names := (p.names.intern name).2 } := by
  unfold createSection at h
  split at h
  · split at h
    · cases h
    · rename_i id hid
      obtain ⟨hroom, hid⟩ := nextHandle_eq_ok hid
      cases h
      exact ⟨hroom, hid, rfl⟩
  · cases h

/-- What adding a label does to the counters. -/
theorem step_pushLabel (hop : op ≠ .clear) (name : Option NameId) (p : Program) :
    Numbers.Step (p.numbers kind) ((pushLabel name p).2.numbers kind) op
      (kind.issued? (.newLabel <$> (pushLabel name p).1)) := by
  rcases hpush : pushLabel name p with ⟨r, p'⟩
  cases r with
  | error e =>
    obtain ⟨-, rfl⟩ := pushLabel_eq_error hpush
    cases kind <;> exact .kept hop rfl
  | ok l =>
    obtain ⟨hroom, hid, rfl⟩ := pushLabel_eq_ok hpush
    cases kind with
    | labels =>
      refine .issued hop hroom hid ?_
      simp [numbers]
    | sections => exact .kept hop rfl

/-- What creating a section does to the counters. -/
theorem step_createSection (hop : op ≠ .clear) (name : String) (flags : SectionFlags)
    (alignment : UInt32) (p : Program) :
    Numbers.Step (p.numbers kind) ((createSection name flags alignment p).2.numbers kind) op
      (kind.issued? (.newSection <$> (createSection name flags alignment p).1)) := by
  rcases hcreate : createSection name flags alignment p with ⟨r, p'⟩
  cases r with
  | error e =>
    obtain rfl := createSection_eq_error hcreate
    cases kind <;> exact .kept hop rfl
  | ok s =>
    obtain ⟨hroom, hid, rfl⟩ := createSection_eq_ok hcreate
    cases kind with
    | labels => exact .kept hop rfl
    | sections =>
      refine .issued hop hroom hid ?_
      simp [numbers]

/-- What is cut to the greatest number is a number. -/
theorem toNat_ofNat_min (n : Nat) : (UInt32.ofNat (min n 0xFFFFFFFF)).toNat = min n 0xFFFFFFFF :=
  UInt32.toNat_ofNat_of_lt' (Nat.lt_of_le_of_lt (Nat.min_le_right _ _) (by decide))

/-- Clearing drops the numbers in use and leaves the counters where they stand. -/
theorem step_clear (p : Program) :
    Numbers.Step (p.numbers kind) (p.clear.numbers kind) .clear none := by
  cases kind <;> exact .cleared (toNat_ofNat_min _) rfl

/-- What creates nothing leaves the numbers alone. -/
theorem Numbers.Step.of_not_creates (hcreates : op.creates = false) (hclear : op ≠ .clear)
    (p : Program) :
    Numbers.Step (p.numbers kind) ((op.apply p).numbers kind) op (kind.issued? (op.answer p)) := by
  rw [kind.issued?_of_not_creates hcreates p]
  exact .kept hclear (numbers_of_naming (op.naming_apply hcreates hclear p) kind)

/-- What a call does to the numbers of labels and of sections. -/
theorem step_numbers (op : Operation) (p : Program) :
    Numbers.Step (p.numbers kind) ((op.apply p).numbers kind) op
      (kind.issued? (op.answer p)) := by
  cases op with
  | createLabel => exact step_pushLabel kind (by nofun) none p
  | createNamedLabel name =>
    have hsame : numbers { p with names := (p.names.intern name).2 } kind = p.numbers kind := by
      cases kind <;> rfl
    exact hsame ▸ step_pushLabel kind (by nofun) _ { p with names := (p.names.intern name).2 }
  | createSection name flags alignment =>
    exact step_createSection kind (by nofun) name flags alignment p
  | clear =>
    have hnone : kind.issued? (Operation.answer p .clear) = none :=
      kind.issued?_of_not_creates rfl p
    rw [hnone]
    exact step_clear kind p
  | _ => exact .of_not_creates kind rfl (by nofun) p

end

/-! ## Runs -/

/-- A call of a run is answered by the program that the calls before it have led to. -/
theorem answers_getElem? (mode : Mode) (ops : List Operation) (n : Nat) :
    (answers (empty mode) ops)[n]? = (ops[n]?).map (·.answer (run mode ops n)) := by
  have hfrom : ∀ (ops : List Operation) (p : Program) (n : Nat),
      (answers p ops)[n]? = (ops[n]?).map (·.answer ((ops.take n).foldl Operation.apply p)) := by
    intro ops
    induction ops with
    | nil => exact fun _ _ => rfl
    | cons op ops ih =>
      intro p n
      cases n with
      | zero => rfl
      | succ n => exact ih (op.apply p) n
  exact hfrom ops _ n

section

variable {kind : Numbered}

/-- The numbers that a run issues start behind those in use and have no gaps. -/
theorem issued_eq_range (hp : (p.numbers kind).InRange) (ops : List Operation) :
    ((answers p ops).filterMap kind.issued?).map UInt32.toNat =
      List.range' (p.numbers kind).next ((answers p ops).filterMap kind.issued?).length := by
  induction ops generalizing p with
  | nil => rfl
  | cons op ops ih =>
    have hstep := step_numbers kind op p
    have hrest := ih (hstep.inRange hp)
    rw [answers]
    cases hissued : kind.issued? (op.answer p) with
    | none =>
      rw [hissued] at hstep
      rw [List.filterMap_cons_none hissued, hrest, hstep.of_none hp]
    | some id =>
      rw [hissued] at hstep
      obtain ⟨hid, hnext, -⟩ := hstep.of_some
      rw [List.filterMap_cons_some hissued, List.map_cons, List.length_cons, List.range'_succ,
        hrest, hid, hnext]

/-- The counters of the empty program stand at zero. -/
theorem inRange_empty (mode : Mode) (kind : Numbered) : ((empty mode).numbers kind).InRange := by
  cases kind <;> exact Nat.zero_le _

/-- What the next call of a run does to the counters. -/
theorem step_run (kind : Numbered) (mode : Mode) (hop : ops[n]? = some op) :
    Numbers.Step ((run mode ops n).numbers kind) ((run mode ops (n + 1)).numbers kind) op
      (kind.issued? (op.answer (run mode ops n))) :=
  run_succ mode hop ▸ step_numbers kind op _

/-- The counters stay in range along a run. -/
theorem inRange_run (kind : Numbered) (mode : Mode) (hn : n ≤ ops.length) :
    ((run mode ops n).numbers kind).InRange := by
  induction n with
  | zero => exact inRange_empty mode kind
  | succ n ih =>
    exact (step_run kind mode (List.getElem?_eq_getElem hn)).inRange (ih (Nat.le_of_lt hn))

/-- The counter and the first number in use go up along a run. -/
theorem numbers_mono (kind : Numbered) (mode : Mode) {m : Nat} (hmn : m ≤ n) (hn : n ≤ ops.length) :
    ((run mode ops m).numbers kind).next ≤ ((run mode ops n).numbers kind).next ∧
      ((run mode ops m).numbers kind).first.toNat ≤
        ((run mode ops n).numbers kind).first.toNat := by
  induction hmn with
  | refl => exact ⟨Nat.le_refl _, Nat.le_refl _⟩
  | @step n hmn ih =>
    have hstep := step_run kind mode (List.getElem?_eq_getElem hn)
    have hrange := inRange_run kind mode (Nat.le_of_lt hn)
    obtain ⟨hnext, hfirst⟩ := ih (Nat.le_of_lt hn)
    exact ⟨Nat.le_trans hnext (hstep.next_le hrange), Nat.le_trans hfirst (hstep.first_le hrange)⟩

/-- The program is cleared between two calls of a run. -/
def ClearedBetween (ops : List Operation) (i n : Nat) : Prop :=
  ∃ c, i < c ∧ c < n ∧ ops[c]? = some .clear

/-- The number was issued by this call of a run, which is no earlier than the program was last
cleared. -/
def IssuedBy (kind : Numbered) (mode : Mode) (ops : List Operation) (n : Nat) (id : UInt32)
    (op : Operation) : Prop :=
  ∃ i < n, ops[i]? = some op ∧ kind.issued? (op.answer (run mode ops i)) = some id ∧
    ¬ ClearedBetween ops i n

/-- What is in use was issued since the program was last cleared. -/
theorem exists_issuedBy (hn : n ≤ ops.length)
    (howns : ((run mode ops n).numbers kind).Owns id) : ∃ op, IssuedBy kind mode ops n id op := by
  induction n with
  | zero =>
    obtain ⟨hfirst, hlt⟩ := howns
    cases kind <;> exact absurd hlt (Nat.not_lt_zero _)
  | succ n ih =>
    have hop := List.getElem?_eq_getElem hn
    rcases (step_run kind mode hop).owns_cases howns with hissued | ⟨hclear, howns⟩
    · refine ⟨_, n, Nat.lt_succ_self n, hop, hissued, ?_⟩
      rintro ⟨c, hnc, hcn, -⟩
      omega
    · obtain ⟨op, i, hin, hopi, hissued, hkept⟩ := ih (Nat.le_of_lt hn) howns
      refine ⟨op, i, Nat.lt_succ_of_lt hin, hopi, hissued, ?_⟩
      rintro ⟨c, hic, hcn, hc⟩
      rcases Nat.lt_succ_iff_lt_or_eq.mp hcn with hcn | rfl
      · exact hkept ⟨c, hic, hcn, hc⟩
      · exact hclear (Option.some.inj (hop.symm.trans hc))

section

variable (hop : ops[i]? = some op) (hid : kind.issued? (op.answer (run mode ops i)) = some id)

include hop hid

/-- A number stays in use until the program is cleared. -/
theorem owns_of_issued (hin : i < n) (hn : n ≤ ops.length) (hkept : ¬ ClearedBetween ops i n) :
    ((run mode ops n).numbers kind).Owns id := by
  induction hin with
  | refl =>
    have hstep := step_run kind mode hop
    rw [hid] at hstep
    exact hstep.of_some.2.2.2
  | @step n hin ih =>
    have hnext := List.getElem?_eq_getElem hn
    have howns := ih (Nat.le_of_lt hn) fun ⟨c, hic, hcn, hc⟩ =>
      hkept ⟨c, hic, Nat.lt_succ_of_lt hcn, hc⟩
    refine (step_run kind mode hnext).owns (fun hclear => ?_) howns
    exact hkept ⟨n, hin, Nat.lt_succ_self n, by rw [hnext, hclear]⟩

/-- Once the program was cleared, the numbers from before lie below those in use. -/
theorem not_owns_of_issued (hn : n ≤ ops.length) (hcleared : ClearedBetween ops i n) :
    ¬ ((run mode ops n).numbers kind).Owns id := by
  obtain ⟨c, hic, hcn, hc⟩ := hcleared
  have hlen : c ≤ ops.length := Nat.le_of_lt (Nat.lt_of_lt_of_le hcn hn)
  have hcount : id.toNat < ((run mode ops c).numbers kind).next := by
    have hstep := step_run kind mode hop
    rw [hid] at hstep
    obtain ⟨hid, hnext, -⟩ := hstep.of_some
    rw [hid]
    exact Nat.lt_of_lt_of_le (hnext ▸ Nat.lt_succ_self _) (numbers_mono kind mode hic hlen).1
  have hfirst : ((run mode ops c).numbers kind).next ≤
      ((run mode ops n).numbers kind).first.toNat := by
    have hrange := inRange_run kind mode hlen
    rw [← (step_run kind mode hc).first_of_clear hrange]
    exact (numbers_mono kind mode hcn hn).2
  rintro ⟨hle, -⟩
  rw [UInt32.le_iff_toNat_le] at hle
  omega

end

/-- The numbers in use are those that were issued since the program was last cleared. -/
theorem owns_iff_issuedBy (hn : n ≤ ops.length) :
    ((run mode ops n).numbers kind).Owns id ↔ ∃ op, IssuedBy kind mode ops n id op := by
  refine ⟨exists_issuedBy hn, fun hissued => ?_⟩
  obtain ⟨op, i, hin, hop, hid, hkept⟩ := hissued
  exact owns_of_issued hop hid hin hn hkept

end

/-! ## Numbers that are not in use -/

/-- What has a number in use is in its table. -/
theorem lookup?_isSome_iff {α : Type} (first : UInt32) (entries : Array α) :
    (lookup? first entries id).isSome ↔ Numbers.Owns ⟨first, entries.size⟩ id := by
  have howns : Numbers.Owns ⟨first, entries.size⟩ id ↔
      first ≤ id ∧ id.toNat - first.toNat < entries.size := by
    unfold Numbers.Owns Numbers.next
    simp only [UInt32.le_iff_toNat_le]
    omega
  rw [howns, lookup?, index?]
  split
  · rename_i h
    rw [Option.bind_some, Array.getElem?_eq_getElem h.2]
    exact iff_of_true rfl h
  · rename_i h
    exact iff_of_false Bool.false_ne_true h

/-- The labels of a program are those whose numbers are in use. -/
theorem ownsLabel_iff : p.ownsLabel l ↔ (p.numbers .labels).Owns l.id := by
  rw [ownsLabel_eq, label?_eq]
  exact lookup?_isSome_iff ..

/-- The sections of a program are those whose numbers are in use. -/
theorem section?_isSome_iff : (p.section? s).isSome ↔ (p.numbers .sections).Owns s.id := by
  rw [section?_eq]
  exact lookup?_isSome_iff ..

/-- The program has no such label. Nothing is known about it, and it can neither be placed nor
referred to. -/
structure RejectsLabel (p : Program) (l : Label) : Prop where
  ownsLabel_eq : p.ownsLabel l = false
  entry_eq : p.label? l = none
  labelName?_eq : p.labelName? l = none
  labelNode?_eq : p.labelNode? l = none
  isBound_eq : p.isBound l = false
  placed : ∀ spot : Spot, spot.Open p → spot.put (.label l) p = (.error (.invalidLabel l.id), p)
  referred : ∀ (spot : Spot) (node : Node), spot.Open p → l ∈ node.references →
    ∃ k ∈ node.references, p.ownsLabel k = false ∧
      spot.put node p = (.error (.invalidLabel k.id), p)

/-- The program has no such section. Nothing is known about it, and it cannot be started. -/
structure RejectsSection (p : Program) (s : Section) : Prop where
  entry_eq : p.section? s = none
  sectionName?_eq : p.sectionName? s = none
  sectionFlags?_eq : p.sectionFlags? s = none
  sectionAlignment?_eq : p.sectionAlignment? s = none
  sectionNode?_eq : p.sectionNode? s = none
  sectionPosition?_eq : p.sectionPosition? s = none
  started : ∀ spot : Spot, spot.Open p →
    spot.put (.sectionStart s) p = (.error (.invalidSection s.id), p)

/-- A node that is refused leaves the program as it was, wherever it was to go. -/
theorem put_eq_error {spot : Spot} {e : Error} (h : spot.put node p = (.error e, p')) : p' = p := by
  cases spot with
  | insertionPoint => exact emit_eq_error h
  | behind position => exact insertAfter_eq_error h
  | inFrontOf position => exact insertBefore_eq_error h

/-- A node that does not pass the check is put in nowhere. -/
theorem Valid.put_of_check_error (h : p.Valid) {spot : Spot} {e : Error} (hopen : spot.Open p)
    (hcheck : p.check node = .error e) : spot.put node p = (.error e, p) := by
  obtain ⟨prev, hlink⟩ := h.exists_link hopen
  have hrefused : (spot.put node p).1 = .error e :=
    (hlink node).1.trans (link_fst_of_check_error hcheck)
  exact Prod.ext hrefused (put_eq_error (Prod.ext hrefused rfl))

/-- A node that refers to a label which the program does not have is refused for such a label. -/
theorem check_of_reference (hl : p.ownsLabel l = false) (hmem : l ∈ node.references) :
    ∃ k ∈ node.references, p.ownsLabel k = false ∧ p.check node = .error (.invalidLabel k.id) := by
  unfold check
  cases hreferences : p.checkReferences node with
  | ok _ =>
    have howns := checkReferences_eq_ok hreferences l hmem
    rw [← ownsLabel_eq, hl] at howns
    cases howns
  | error e =>
    obtain ⟨k, hk, hrefused⟩ := exists_of_forM_eq_error hreferences
    split at hrefused
    · cases hrefused
    · rename_i howns
      obtain rfl := Except.error.inj hrefused
      exact ⟨k, hk, Bool.eq_false_iff.mpr howns, rfl⟩

/-- A label whose number is not in use is rejected wherever it is mentioned. -/
theorem Valid.rejectsLabel (h : p.Valid) (hl : ¬ (p.numbers .labels).Owns l.id) :
    p.RejectsLabel l := by
  have howns : p.ownsLabel l = false := Bool.eq_false_iff.mpr fun howns =>
    hl (ownsLabel_iff.mp howns)
  have hnone : p.label? l = none := by
    rw [ownsLabel_eq] at howns
    exact Option.isNone_iff_eq_none.mp (Option.isSome_eq_false_iff.mp howns)
  have hnode : p.labelNode? l = none := by rw [labelNode?, hnone, Option.bind_none]
  refine ⟨howns, hnone, by rw [labelName?, hnone]; rfl, hnode, by rw [isBound, hnode]; rfl,
    fun spot hopen => ?_, fun spot node hopen hmem => ?_⟩
  · refine h.put_of_check_error hopen ?_
    show p.checkContent (.label l) = _
    simp only [checkContent, hnone]
  · obtain ⟨k, hk, hforeign, hcheck⟩ := check_of_reference howns hmem
    exact ⟨k, hk, hforeign, h.put_of_check_error hopen hcheck⟩

/-- A section whose number is not in use is rejected wherever it is mentioned. -/
theorem Valid.rejectsSection (h : p.Valid) (hs : ¬ (p.numbers .sections).Owns s.id) :
    p.RejectsSection s := by
  have hnone : p.section? s = none := by
    rw [← section?_isSome_iff, Bool.not_eq_true] at hs
    exact Option.isNone_iff_eq_none.mp (Option.isSome_eq_false_iff.mp hs)
  have hnode : p.sectionNode? s = none := by rw [sectionNode?, hnone, Option.bind_none]
  refine ⟨hnone, by rw [sectionName?, hnone]; rfl, by rw [sectionFlags?, hnone]; rfl,
    by rw [sectionAlignment?, hnone]; rfl, hnode, by rw [sectionPosition?, hnode]; rfl,
    fun spot hopen => h.put_of_check_error hopen ?_⟩
  show p.checkContent (.sectionStart s) = _
  simp only [checkContent, hnone]

end X86Asm.Program
