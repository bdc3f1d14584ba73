import X86Asm.Proofs.Encoding.Jump
import X86Asm.Proofs.LittleEndian

/-!
# What an encoding depends on

Whether an instruction has an encoding is decided before its context is looked at. The context
decides about the form of a jump and about the value of the label field, and only a strict one has
anything to refuse: a label that is not known, or a value that the field cannot hold. But for these
two errors strict and relaxed contexts agree (`Instruction.encode_agrees`).

The label that the context is asked for is the only one that the operands mention, and an
instruction without a label has the same bytes everywhere (`Instruction.encode_classifies`).
-/

namespace X86Asm

variable {mode : Mode} {i : Instruction} {t : Template} {ctx : Context} {e : Encoded}
  {err : Error} {lead : List UInt8} {field : LabelField}

/-- Whether the error is about the address of a label: that there is none, or that it does not
fit. -/
def Error.isAboutLabel : Error → Bool
  | .unresolvedLabel .. | .displacementOutOfRange .. => true
  | _ => false

namespace Context

/-- The context with nothing to refuse. -/
def relaxed (ctx : Context) : Context := { ctx with strict := false }

/-- The context in which labels have to be known and their values have to fit. -/
def strictly (ctx : Context) : Context := { ctx with strict := true }

/-- The relaxed context in which no label is known. -/
def blind (ctx : Context) : Context := { ctx with strict := false, resolve := fun _ => none }

end Context

/-! ## The label field -/

/-- A label field is refused only for its label. -/
theorem LabelField.isAboutLabel_of_fill (h : field.fill mode ctx lead = .error err) :
    err.isAboutLabel = true := by
  unfold fill at h
  simp only at h
  split at h <;> split at h <;> cases h <;> rfl

/-- What a strict context accepts a relaxed one makes no other. -/
theorem LabelField.fill_relaxed (h : field.fill mode ctx.strictly lead = .ok e) :
    field.fill mode ctx.relaxed lead = .ok e := by
  rw [fill_eq_ok_iff] at h ⊢
  cases h with
  | value htarget _ => exact .value htarget nofun
  | zero _ hstrict => cases hstrict

/-! ## Templates -/

/-- What a template is refused for is its label. -/
theorem Template.isAboutLabel_of_fill (h : t.fill mode ctx = .error err) :
    err.isAboutLabel = true := by
  obtain ⟨lead, field, -, hfield⟩ := fill_eq_error h
  exact LabelField.isAboutLabel_of_fill hfield

/-- What a strict context takes comes out of a relaxed one with the same bytes. -/
theorem Template.fill_relaxed (h : t.fill mode ctx.strictly = .ok e) :
    t.fill mode ctx.relaxed = .ok e := by
  -- which form is taken does not depend on what is refused
  have hsettle : t.settle ctx.relaxed = t.settle ctx.strictly := by cases t <;> rfl
  unfold fill at h ⊢
  rw [hsettle]
  split at h
  · exact h
  · exact LabelField.fill_relaxed h

/-- No branch is short where no label has an address. -/
theorem Branch.takesShort_blind (b : Branch) (ctx : Context) : b.takesShort ctx.blind = false := by
  simp [takesShort, Context.blind]

/-- Without its label an instruction takes its longest form, and what is shorter in some context is
a jump in its short form. -/
theorem Template.length_le_blind (ht : i.template mode = .ok t) (ctx other : Context) :
    t.length ctx ≤ t.length other.blind ∧
      (t.length ctx < t.length other.blind → i.jumpTarget?.isSome ∧ t.length ctx = 2) := by
  by_cases hbranch : ∃ b, t = .branch b ∧ b.short?.isSome
  · obtain ⟨b, rfl, hshort⟩ := hbranch
    have hnear := two_lt_near ht
    have htarget : i.jumpTarget?.isSome := by
      rw [Instruction.jumpTarget_of_template ht hshort]
      rfl
    have hblind : length other.blind (.branch b) = b.near.length + b.nearWidth :=
      if_neg (Bool.eq_false_iff.mp (b.takesShort_blind other))
    rw [hblind, length]
    split
    · exact ⟨Nat.le_of_lt hnear, fun _ => ⟨htarget, rfl⟩⟩
    · exact ⟨Nat.le_refl _, fun hlt => absurd hlt (Nat.lt_irrefl _)⟩
  · rw [length_congr hbranch ctx other.blind]
    exact ⟨Nat.le_refl _, fun hlt => absurd hlt (Nat.lt_irrefl _)⟩

/-! ## Relaxed and strict contexts -/

/-- An instruction that has no template is not refused for its label. -/
theorem Refusal.isAboutLabel_toError (r : Refusal) (m : Mnemonic) :
    (r.toError mode m).isAboutLabel = false := by
  cases r <;> rfl

/-- What has a template has an encoding in each relaxed context. -/
theorem Instruction.exists_encode_of_template (ht : i.template mode = .ok t) (ctx : Context)
    (hctx : ctx.strict = false) : ∃ e, i.encode mode ctx = .ok e := by
  unfold encode
  rw [ht]
  exact Template.exists_fill hctx t

/-- An instruction is refused for something else than its label if it has no template. -/
theorem Instruction.encode_eq_error_iff :
    i.encode mode ctx = .error err ∧ err.isAboutLabel = false ↔
      ∃ r, i.template mode = .error r ∧ r.toError mode i.mnemonic = err := by
  unfold encode
  cases i.template mode with
  | error r =>
    constructor
    · rintro ⟨h, -⟩
      exact ⟨r, rfl, Except.error.inj h⟩
    · rintro ⟨r', hr, rfl⟩
      obtain rfl := Except.error.inj hr
      exact ⟨rfl, r.isAboutLabel_toError _⟩
  | ok t =>
    constructor
    · rintro ⟨h, hlabel⟩
      cases (Template.isAboutLabel_of_fill h).symm.trans hlabel
    · rintro ⟨r, hr, -⟩
      cases hr

/-- A relaxed context has no other errors. -/
theorem Instruction.encode_relaxed_eq_error_iff :
    i.encode mode ctx.relaxed = .error err ↔
      ∃ r, i.template mode = .error r ∧ r.toError mode i.mnemonic = err := by
  have hlabel (h : i.encode mode ctx.relaxed = .error err) : err.isAboutLabel = false := by
    cases ht : i.template mode with
    | error r =>
      unfold encode at h
      rw [ht] at h
      cases h
      exact r.isAboutLabel_toError _
    | ok t =>
      obtain ⟨e, he⟩ := exists_encode_of_template ht ctx.relaxed rfl
      cases he.symm.trans h
  exact ⟨fun h => encode_eq_error_iff.mp ⟨h, hlabel h⟩, fun h => (encode_eq_error_iff.mpr h).1⟩

/-- **Relaxed and strict contexts.** Whether an instruction is encoded in a relaxed context, and why
not, is the same in all of them, and it is never for its label. A strict context gives the same
bytes and field if it gives any, and its errors about anything but the label are the same. Nothing
is longer than with the label unknown, and only jumps to a label are shorter, by taking the form of
two bytes. -/
theorem Instruction.encode_agrees (mode : Mode) (i : Instruction) (ctx : Context) :
    (∀ other : Context, (fun _ => ()) <$> i.encode mode ctx.relaxed =
      (fun _ => ()) <$> i.encode mode other.relaxed) ∧
    (∀ e, i.encode mode ctx.strictly = .ok e → i.encode mode ctx.relaxed = .ok e) ∧
    (∀ err, i.encode mode ctx.relaxed = .error err ↔
      i.encode mode ctx.strictly = .error err ∧ err.isAboutLabel = false) ∧
    ∀ e, i.encode mode ctx = .ok e → ∀ other : Context, ∃ longest : Encoded,
      i.encode mode other.blind = .ok longest ∧ e.bytes.length ≤ longest.bytes.length ∧
        (e.bytes.length < longest.bytes.length →
          i.jumpTarget?.isSome ∧ e.bytes.length = 2) := by
  refine ⟨fun other => ?_, fun e h => ?_, fun err => ?_, fun e h other => ?_⟩
  · -- in a relaxed context only the template can be refused, which no context enters
    cases ht : i.template mode with
    | error r =>
      have hrefused (c : Context) : i.encode mode c.relaxed = .error (r.toError mode i.mnemonic) :=
        encode_relaxed_eq_error_iff.mpr ⟨r, ht, rfl⟩
      rw [hrefused, hrefused]
    | ok t =>
      obtain ⟨e, he⟩ := exists_encode_of_template ht ctx.relaxed rfl
      obtain ⟨e', he'⟩ := exists_encode_of_template ht other.relaxed rfl
      rw [he, he']
      rfl
  · obtain ⟨t, ht, hfill⟩ := encode_eq_ok h
    unfold encode
    rw [ht]
    exact Template.fill_relaxed hfill
  · rw [encode_relaxed_eq_error_iff, encode_eq_error_iff]
  · obtain ⟨t, ht, -⟩ := encode_eq_ok h
    obtain ⟨longest, hlongest⟩ := exists_encode_of_template ht other.blind rfl
    refine ⟨longest, hlongest, ?_⟩
    rw [length_of_encode ht h, length_of_encode ht hlongest]
    exact Template.length_le_blind ht ctx other

/-- A conditional jump that is short where its label is near, and that takes six bytes where the
label is not known. -/
theorem Instruction.encode_agrees_jne :
    let i : Instruction := ⟨.jcc .notEqual, [.label ⟨0⟩]⟩
    let ctx : Context := { address := 0x1000, resolve := fun _ => some 0x1010 }
    let short : Encoded := ⟨[0x75, 0x0E], some ⟨1, 1, ⟨0⟩, .relative, 0, true⟩⟩
    let near : Encoded := ⟨[0x0F, 0x85, 0, 0, 0, 0], some ⟨2, 4, ⟨0⟩, .relative, 0, false⟩⟩
    i.encode .long64 ctx.strictly = .ok short ∧ i.encode .long64 ctx.relaxed = .ok short ∧
      i.encode .long64 ctx.blind = .ok near ∧ i.jumpTarget?.isSome := by
  intro i ctx short near
  have hblind : i.encode .long64 ctx.blind = .ok near := by decide +kernel
  have hstrict : i.encode .long64 ctx.strictly = .ok short := by decide +kernel
  obtain ⟨-, hsame, -, hlongest⟩ := encode_agrees .long64 i ctx
  have hrelaxed := hsame short hstrict
  obtain ⟨longest, hlongest, -, hjump⟩ := hlongest short hrelaxed ctx
  obtain rfl : near = longest := Except.ok.inj (hblind.symm.trans hlongest)
  exact ⟨hstrict, hrelaxed, hblind, (hjump (by decide)).1⟩

/-! ## Labels -/

/-- The operands of an instruction mention no label but the one that the template has. -/
theorem Template.Shape.labels_eq {operands : List Operand} (h : t.Shape mode operands) :
    operands.filterMap Operand.label? = t.label?.toList := by
  cases h with
  | fixed bytes hnone =>
    exact List.filterMap_eq_nil_iff.mpr (List.findSome?_eq_none_iff.mp hnone)
  | labelled lead reg hoperands hlabel =>
    obtain ⟨r, rfl | rfl⟩ := hoperands <;>
      simp [Operand.label?, Template.label?, List.filterMap_cons, hlabel]
  | branch hoperands =>
    rw [hoperands]
    rfl

/-- The field is for the label of the template. -/
theorem Template.label_of_fill (h : t.fill mode ctx = .ok e) :
    e.fixup.map Fixup.label = t.label? := by
  rcases fill_eq_ok h with ⟨bytes, hs, rfl⟩ | ⟨lead, field, hs, hfield⟩
  · exact (label?_of_settle_none hs).symm
  · rw [label?_of_settle hs, (LabelField.fill_eq_ok_iff.mp hfield).fixup_eq]
    rfl

/-- Without a label the context does not matter. -/
theorem Template.fill_of_label?_none (h : t.label? = none) (ctx other : Context) :
    t.fill mode ctx = t.fill mode other := by
  cases t with
  | fixed bytes => rfl
  | _ => cases h

/-- **Labels.** What is encoded has a field for a label exactly if the instruction mentions one, and
the field is for that label, which no other operand mentions beside it. An instruction that mentions
none has the same bytes in all contexts, so that bytes found at one address are right at all. -/
theorem Instruction.encode_classifies (h : i.encode mode ctx = .ok e) :
    e.fixup.map Fixup.label = i.label? ∧
      i.operands.filterMap Operand.label? = i.label?.toList ∧
        (i.label? = none → ∀ other : Context, i.encode mode other = .ok e) := by
  obtain ⟨t, ht, hfill⟩ := encode_eq_ok h
  rw [label?_of_template ht]
  refine ⟨Template.label_of_fill hfill, (shape_template ht).labels_eq, fun hnone other => ?_⟩
  unfold encode
  rw [ht, ← hfill]
  exact Template.fill_of_label?_none hnone other ctx

/-- A load through a label in real mode, and a move of a constant, which is the same everywhere. -/
theorem Instruction.encode_classifies_mov :
    let load : Instruction :=
      ⟨.mov, [.register (.word 0), .memory { label := some ⟨7⟩, disp := 2 }]⟩
    let move : Instruction := ⟨.mov, [.register (.word 3), .immediate 0x1234]⟩
    let ctx : Context := { address := 0x7C00, resolve := fun _ => some 0x7E00, strict := true }
    let other : Context := { address := 0, resolve := fun _ => none }
    load.encode .real16 ctx =
        .ok ⟨[0x8B, 0x06, 0x02, 0x7E], some ⟨2, 2, ⟨7⟩, .absolute, 0, true⟩⟩ ∧
      load.label? = some ⟨7⟩ ∧ load.operands.filterMap Operand.label? = [⟨7⟩] ∧
      move.encode .real16 other = .ok ⟨[0xBB, 0x34, 0x12], none⟩ ∧
      move.encode .real16 ctx = .ok ⟨[0xBB, 0x34, 0x12], none⟩ := by
  intro load move ctx other
  have hload : load.encode .real16 ctx =
      .ok ⟨[0x8B, 0x06, 0x02, 0x7E], some ⟨2, 2, ⟨7⟩, .absolute, 0, true⟩⟩ := by decide +kernel
  have hmove : move.encode .real16 other = .ok ⟨[0xBB, 0x34, 0x12], none⟩ := by decide +kernel
  obtain ⟨hlabel, hlabels, -⟩ := encode_classifies hload
  exact ⟨hload, hlabel.symm, hlabels, hmove, (encode_classifies hmove).2.2 rfl ctx⟩

end X86Asm
