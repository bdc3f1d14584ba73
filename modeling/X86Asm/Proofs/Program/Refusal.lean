import X86Asm.Proofs.Program.Listing

/-!
# Refused calls

A call that is refused leaves a program as it was, with its links and slots, its tables and names
and its insertion point. The one exception is the name of a label, which is entered in the table
before a number is looked for, and stays there if there is none.

So the refused calls of a run may as well be left out: what the others return does not show that
there were any, nor does the program at the end (`Program.refused_calls`).
-/

namespace X86Asm.Program

variable {p p' : Program} {op : Operation} {ops : List Operation} {node : Node} {e : Error}
  {position : NodeId}

/-! ## One call -/

/-- There is no further number only if the numbers are used up. -/
theorem nextHandle_eq_error {first : UInt32} {count : Nat} {resource : String}
    (h : nextHandle first count resource = .error e) : e = .handlesExhausted resource := by
  unfold nextHandle at h
  split at h
  · cases h
  · exact (Except.error.inj h).symm

/-- A label is refused only for want of a number, and nothing is added then. -/
theorem pushLabel_eq_error {name : Option NameId} (h : pushLabel name p = (.error e, p')) :
    e = .handlesExhausted "labels" ∧ p' = p := by
  unfold pushLabel at h
  split at h
  · rename_i hnext
    obtain ⟨he, rfl⟩ := Prod.mk.inj h
    cases he
    exact ⟨nextHandle_eq_error hnext, rfl⟩
  · cases h

/-- A section that is refused leaves the program as it was, its names included. -/
theorem createSection_eq_error {name : String} {flags : SectionFlags} {alignment : UInt32}
    (h : createSection name flags alignment p = (.error e, p')) : p' = p := by
  unfold createSection at h
  split at h
  · split at h
    · exact (Prod.mk.inj h).2.symm
    · cases h
  · exact (Prod.mk.inj h).2.symm

/-- A node that is refused in front of another leaves the program as it was. -/
theorem insertBefore_eq_error (h : insertBefore position node p = (.error e, p')) : p' = p := by
  unfold insertBefore at h
  split at h
  · exact link_eq_error h
  · exact (Prod.mk.inj h).2.symm

/-- An insertion point that is refused stays where it was. -/
theorem setCursor_eq_error {target : Option NodeId} (h : setCursor target p = (.error e, p')) :
    p' = p := by
  unfold setCursor at h
  split at h
  · cases h
  · split at h
    · cases h
    · exact (Prod.mk.inj h).2.symm

/-- An edit that changes nothing where it fails changes nothing in a call that fails with it. -/
theorem snd_of_map_eq_error {α β : Type} {f : α → β} {edit : Edit α}
    (hedit : ∀ p', edit p = (.error e, p') → p' = p) (h : f <$> (edit p).1 = .error e) :
    (edit p).2 = p :=
  hedit _ (Prod.ext (map_eq_error_iff.mp h) rfl)

/-- A refused call changes nothing, except that the name of a label stays known. -/
theorem Operation.apply_of_refused (h : op.answer p = .error e) :
    op.apply p = p ∨ ∃ name, op = .createNamedLabel name ∧ e = .handlesExhausted "labels" ∧
      op.apply p = { p with names := (p.names.intern name).2 } := by
  cases op with
  | createLabel => exact .inl (snd_of_map_eq_error (fun _ h => (pushLabel_eq_error h).2) h)
  | createNamedLabel name =>
    obtain ⟨rfl, hsame⟩ := pushLabel_eq_error (Prod.ext (map_eq_error_iff.mp h) rfl)
    exact .inr ⟨name, rfl, rfl, hsame⟩
  | createSection name flags alignment =>
    exact .inl (snd_of_map_eq_error (fun _ h => createSection_eq_error h) h)
  | emit node => exact .inl (snd_of_map_eq_error (fun _ h => emit_eq_error h) h)
  | emitAddress l => exact .inl (snd_of_map_eq_error (fun _ h => emit_eq_error h) h)
  | insertAfter position node =>
    exact .inl (snd_of_map_eq_error (fun _ h => insertAfter_eq_error h) h)
  | insertBefore position node =>
    exact .inl (snd_of_map_eq_error (fun _ h => insertBefore_eq_error h) h)
  | setCursor target => exact .inl (snd_of_map_eq_error (fun _ h => setCursor_eq_error h) h)
  | erase id => exact .inl (snd_of_map_eq_error (fun _ h => erase_eq_error h) h)
  | clear => cases h

/-! ## Runs -/

/-- What the calls of a run return. -/
def answers (p : Program) : List Operation → List (Except Error Operation.Answer)
  | [] => []
  | op :: ops => op.answer p :: answers (op.apply p) ops

/-- The calls of a run that are not refused. -/
def accepted (p : Program) : List Operation → List Operation
  | [] => []
  | op :: ops =>
    if (op.answer p).isOk then op :: accepted (op.apply p) ops else accepted (op.apply p) ops

/-- A call that has a result is among those that are accepted. -/
theorem accepted_of_ok {answer : Operation.Answer} (h : op.answer p = .ok answer) :
    accepted p (op :: ops) = op :: accepted (op.apply p) ops := by
  rw [accepted, h]
  rfl

/-- A call that is refused is not. -/
theorem accepted_of_error (h : op.answer p = .error e) :
    accepted p (op :: ops) = accepted (op.apply p) ops := by
  rw [accepted, h]
  rfl

/-- **Refused calls change nothing.** A call that is refused leaves the program as it was, unless a
label with a name is refused for want of a number, which changes no more than the names. If no label
is refused for that, a run comes to the same program without its refused calls, and the others
return the same. -/
theorem refused_calls (p : Program) :
    (∀ (op : Operation) (e : Error), op.answer p = .error e →
      op.apply p = p ∨ ∃ name, op = .createNamedLabel name ∧ e = .handlesExhausted "labels" ∧
        op.apply p = { p with names := (p.names.intern name).2 }) ∧
    ∀ ops, .error (.handlesExhausted "labels") ∉ answers p ops →
      (accepted p ops).foldl Operation.apply p = ops.foldl Operation.apply p ∧
      answers p (accepted p ops) = (answers p ops).filter Except.isOk := by
  refine ⟨fun op e h => op.apply_of_refused h, fun ops => ?_⟩
  induction ops generalizing p with
  | nil => exact fun _ => ⟨rfl, rfl⟩
  | cons op ops ih =>
    intro hroom
    rw [answers, List.mem_cons, not_or] at hroom
    obtain ⟨hfirst, hrest⟩ := hroom
    obtain ⟨hprogram, hanswers⟩ := ih (op.apply p) hrest
    rw [answers, List.foldl_cons]
    cases hanswer : op.answer p with
    | ok answer =>
      rw [accepted_of_ok hanswer, answers, hanswer, hanswers]
      exact ⟨hprogram, rfl⟩
    | error e =>
      -- the rest of the run starts from the same program
      have hsame : op.apply p = p := by
        refine (op.apply_of_refused hanswer).resolve_right ?_
        rintro ⟨name, -, rfl, -⟩
        exact hfirst hanswer.symm
      rw [accepted_of_error hanswer, List.filter_cons_of_neg (by simp [Except.isOk, Except.toBool])]
      rw [hsame] at hprogram hanswers ⊢
      exact ⟨hprogram, hanswers⟩

/-- A label is placed, and then much is refused before another node goes in. -/
def refusedRun : List Operation :=
  [.createLabel, .emit (.label ⟨0⟩), .emit (.label ⟨0⟩), .emit (.label ⟨7⟩),
    .createSection "data" .data 3, .emit (.address ⟨0⟩ 3), .emit (.align 6 .code),
    .insertAfter ⟨4, 0⟩ (.instruction ⟨.nop, []⟩), .setCursor (some ⟨0, 1⟩), .erase ⟨1, 0⟩,
    .emit (.instruction ⟨.hlt, []⟩)]

/-- Without the calls that were refused the others get the same answers. -/
theorem answers_accepted_refusedRun :
    (Operation.erase ⟨1, 0⟩).apply (empty .long64) = empty .long64 ∧
      accepted (empty .long64) refusedRun =
        [.createLabel, .emit (.label ⟨0⟩), .emit (.instruction ⟨.hlt, []⟩)] ∧
      answers (empty .long64) (accepted (empty .long64) refusedRun) =
        [.ok (.newLabel ⟨0⟩), .ok (.added ⟨0, 0⟩), .ok (.added ⟨1, 0⟩)] := by
  obtain ⟨hcall, hrun⟩ := refused_calls (empty .long64)
  obtain ⟨-, hanswers⟩ := hrun refusedRun (by decide +kernel)
  refine ⟨(hcall (.erase ⟨1, 0⟩) .invalidNode rfl).resolve_right ?_, rfl, hanswers.trans ?_⟩
  · rintro ⟨name, ⟨⟩, -⟩
  · decide +kernel

end X86Asm.Program
