import X86Asm.Proofs.Program.Numbering
import X86Asm.Proofs.Workspace.Reuse

/-!
# Labels and sections from before a clear

The numbers of labels and sections are never issued twice, so a handle from before the program was
last cleared cannot be taken for a new one. It is rejected by the program, and it has no address in
what is made of the program, in an assembler as in a workspace, whose array of addresses has a first
number of its own (`Program.numbers_not_reissued`).
-/

namespace X86Asm

variable {p : Program} {l : Label}

/-- A label that the program does not have has no address, whatever comes of the program. -/
theorem Assembler.labelAddress?_eq_none (hp : p.Valid) (hl : p.ownsLabel l = false) (a : Assembler)
    (base : UInt64) : (a.assemble p base).2.labelAddress? l = none := by
  unfold labelAddress?
  rcases hmade : a.assemble p base with ⟨_ | _, a'⟩
  · have herror : (a.assemble p base).1 = .error _ := congrArg Prod.fst hmade
    have himage := image_of_error herror
    rw [hmade] at himage
    rw [himage]
    exact LabelTable.find?_empty l
  · obtain ⟨image, passes, himage, rfl⟩ := assemble_eq_ok hmade
    obtain ⟨chunks, address, hassembles⟩ := Program.assembles_of_ok hp himage
    refine Option.eq_none_iff_forall_ne_some.mpr fun target htarget => ?_
    -- an address belongs to a node that places the label
    obtain ⟨i, hi, -⟩ := (hassembles.label_iff l target).mp htarget
    rw [hp.registry.label_known l (List.mem_of_getElem? hi)] at hl
    cases hl

/-- Nor has it one in a workspace. -/
theorem Workspace.labelAddress?_eq_none (hp : p.Valid) (hl : p.ownsLabel l = false)
    (ws : Workspace) (base : UInt64) : (ws.assemble p base).2.labelAddress? l = none := by
  have hlimits : ws.limits = (Assembler.withLimits ws.limits).limits := rfl
  rw [(assemble_agrees hlimits hp base).2.label_eq]
  exact Assembler.labelAddress?_eq_none hp hl _ base

namespace Program

/-- **Numbers are not issued twice.** The numbers of the labels that a run creates count up from
zero without gaps, however often the program is cleared, and so do those of the sections. A label or
section is known until the program is cleared, and rejected ever after, also when there are new ones
in its place. It then has no address in what is made of the program. -/
theorem numbers_not_reissued (mode : Mode) {ops : List Operation} (hops : ∀ op ∈ ops, op.Made) :
    (∀ kind : Numbered,
      let issued := (answers (empty mode) ops).filterMap kind.issued?
      issued.map UInt32.toNat = List.range issued.length) ∧
    (∀ i n l, (answers (empty mode) ops)[i]? = some (.ok (.newLabel l)) → i < n →
      n ≤ ops.length →
      (¬ ClearedBetween ops i n → (run mode ops n).ownsLabel l) ∧
      (ClearedBetween ops i n → (run mode ops n).RejectsLabel l ∧
        (∀ (a : Assembler) base, (a.assemble (run mode ops n) base).2.labelAddress? l = none) ∧
        ∀ (ws : Workspace) base, (ws.assemble (run mode ops n) base).2.labelAddress? l = none)) ∧
    ∀ i n s, (answers (empty mode) ops)[i]? = some (.ok (.newSection s)) → i < n →
      n ≤ ops.length →
      (¬ ClearedBetween ops i n → ((run mode ops n).section? s).isSome) ∧
      (ClearedBetween ops i n → (run mode ops n).RejectsSection s) := by
  refine ⟨fun kind => ?_, fun i n l hl hin hn => ?_, fun i n s hs hin hn => ?_⟩
  · have hrange := issued_eq_range (inRange_empty mode kind) ops
    have hstart : ((empty mode).numbers kind).next = 0 := by cases kind <;> rfl
    rwa [hstart, ← List.range_eq_range'] at hrange
  · rw [answers_getElem?] at hl
    obtain ⟨op, hop, hanswer⟩ := Option.map_eq_some_iff.mp hl
    have hid : Numbered.labels.issued? (op.answer (run mode ops i)) = some l.id := by
      rw [hanswer]
      rfl
    have hv := valid_run mode hops n
    refine ⟨fun hkept => ownsLabel_iff.mpr (owns_of_issued hop hid hin hn hkept),
      fun hcleared => ?_⟩
    have hrejects := hv.rejectsLabel (not_owns_of_issued hop hid hn hcleared)
    exact ⟨hrejects, Assembler.labelAddress?_eq_none hv hrejects.ownsLabel_eq,
      Workspace.labelAddress?_eq_none hv hrejects.ownsLabel_eq⟩
  · rw [answers_getElem?] at hs
    obtain ⟨op, hop, hanswer⟩ := Option.map_eq_some_iff.mp hs
    have hid : Numbered.sections.issued? (op.answer (run mode ops i)) = some s.id := by
      rw [hanswer]
      rfl
    exact ⟨fun hkept => section?_isSome_iff.mpr (owns_of_issued hop hid hin hn hkept),
      fun hcleared => (valid_run mode hops n).rejectsSection
        (not_owns_of_issued hop hid hn hcleared)⟩

/-- A label and a section, and others of each after the program was cleared. -/
def clearedRun : List Operation :=
  [.createLabel, .createSection "text" .code 16, .clear, .createLabel,
    .createSection "data" .data 4, .emit (.label ⟨1⟩), .emit (.address ⟨1⟩ 8)]

/-- Behind a clear the second label has the number one. It is known, while the label with number
zero is rejected and has no address, and likewise for sections. -/
theorem rejects_clearedRun :
    (∀ op ∈ clearedRun, op.Made) ∧
      ((answers (empty .long64) clearedRun).filterMap Numbered.labels.issued?).map UInt32.toNat =
        [0, 1] ∧
      (run .long64 clearedRun 7).ownsLabel ⟨1⟩ ∧ (run .long64 clearedRun 7).RejectsLabel ⟨0⟩ ∧
      ((Assembler.withLimits {}).assemble (run .long64 clearedRun 7) 0x1000).1 = .ok () ∧
      ((Assembler.withLimits {}).assemble (run .long64 clearedRun 7) 0x1000).2.labelAddress? ⟨0⟩ =
        none ∧
      ((run .long64 clearedRun 7).section? ⟨1⟩).isSome ∧
      (run .long64 clearedRun 7).RejectsSection ⟨0⟩ := by
  have hmade : ∀ op ∈ clearedRun, op.Made := by
    intro op hop
    simp only [clearedRun, List.mem_cons, List.not_mem_nil, or_false] at hop
    rcases hop with rfl | rfl | rfl | rfl | rfl | rfl | rfl <;> trivial
  have hcleared (i : Nat) (hi : i < 2) : ClearedBetween clearedRun i 7 := ⟨2, hi, by decide, rfl⟩
  have hkept (i : Nat) (hi : 2 < i) : ¬ ClearedBetween clearedRun i 7 := by
    rintro ⟨c, hic, hc, hclear⟩
    have hlate : c = 4 ∨ c = 5 ∨ c = 6 := by omega
    rcases hlate with rfl | rfl | rfl <;> cases hclear
  obtain ⟨hnumbers, hlabels, hsections⟩ := numbers_not_reissued .long64 hmade
  obtain ⟨-, hold⟩ := hlabels 0 7 ⟨0⟩ (by decide +kernel) (by decide) (by decide)
  obtain ⟨hnew, -⟩ := hlabels 3 7 ⟨1⟩ (by decide +kernel) (by decide) (by decide)
  obtain ⟨-, holdSection⟩ := hsections 1 7 ⟨0⟩ (by decide +kernel) (by decide) (by decide)
  obtain ⟨hnewSection, -⟩ := hsections 4 7 ⟨1⟩ (by decide +kernel) (by decide) (by decide)
  obtain ⟨hrejects, haddress, -⟩ := hold (hcleared 0 (by decide))
  refine ⟨hmade, (hnumbers .labels).trans ?_, hnew (hkept 3 (by decide)), hrejects,
    by decide +kernel, haddress _ _, hnewSection (hkept 4 (by decide)),
    holdSection (hcleared 1 (by decide))⟩
  decide +kernel

end Program

end X86Asm
