import X86Asm.Proofs.Image.Relocations
import X86Asm.Proofs.Workspace.Agreement

/-!
# Reuse

A workspace is used for one program after the other, with failures at any point in between. Nothing
of what was done with it can be seen afterwards, as it starts from nothing but its limits, and these
are never written (`Workspace.assemble_after`).
-/

namespace X86Asm

open Guarded

/-- Something that is done with an assembler. -/
inductive Event where
  /-- A program is given to it, which may fail. -/
  | assemble (p : Program) (base : UInt64)
  /-- The bytes are taken. -/
  | takeCode

/-- The program, if there is one, can come about. -/
def Event.Reachable : Event → Prop
  | assemble p _ => p.Reachable
  | takeCode => True

namespace Assembler

variable {a : Assembler} {p : Program} {base : UInt64}

/-- The assembler after an event. -/
def perform (a : Assembler) : Event → Assembler
  | .assemble p base => (a.assemble p base).2
  | .takeCode => a.takeCode.2

/-- An assembler with limits after a history. -/
def after (limits : Limits) (history : List Event) : Assembler :=
  history.foldl perform (withLimits limits)

/-- After a failure an assembler shows the empty image. -/
theorem image_of_error {e : Error} (h : (a.assemble p base).1 = .error e) :
    (a.assemble p base).2.image = .empty := by
  unfold assemble at h ⊢
  split at h
  · cases h
  · rfl

/-- Nothing but the limits of an assembler decides what comes of a program. -/
theorem assemble_eq_of_limits {a' : Assembler} (h : a.limits = a'.limits) (p : Program)
    (base : UInt64) : a.assemble p base = a'.assemble p base := by
  unfold assemble
  rw [h]

/-- An assembler keeps its limits whatever happens to it. -/
theorem limits_perform (a : Assembler) (event : Event) : (a.perform event).limits = a.limits := by
  cases event with
  | assemble p base =>
    simp only [perform, assemble]
    split <;> rfl
  | takeCode => rfl

/-- The limits of an assembler are never written. -/
theorem limits_after (limits : Limits) (history : List Event) :
    (after limits history).limits = limits := by
  have hfoldl (a : Assembler) : (history.foldl perform a).limits = a.limits := by
    induction history generalizing a with
    | nil => rfl
    | cons event history ih => exact (ih _).trans (a.limits_perform event)
  exact hfoldl _

end Assembler

namespace Workspace

variable {ws : Workspace} {a : Assembler} {p : Program} {base : UInt64} {limits : Limits}
  {event : Event} {history : List Event}

/-- The workspace after an event. -/
def perform (ws : Workspace) : Event → Workspace
  | .assemble p base => (ws.assemble p base).2
  | .takeCode => ws.takeCode.2

/-- A workspace with limits after a history. -/
def after (limits : Limits) (history : List Event) : Workspace :=
  history.foldl perform (withLimits limits)

/-! ## What an event leaves -/

/-- When an error is reported nothing is left. -/
theorem isClear_of_error {e : Error} (h : (ws.assemble p base).1 = .error (.error e)) :
    (ws.assemble p base).2.IsClear := by
  unfold assemble at h ⊢
  split
  · rename_i hrun
    rw [hrun] at h
    cases h
  · exact isClear_reset _ _
  · rename_i hrun
    rw [hrun] at h
    cases h

/-- Nothing but the limits of a workspace decides what comes of a program. -/
theorem assemble_eq_of_limits {ws' : Workspace} (h : ws.limits = ws'.limits) (p : Program)
    (base : UInt64) : ws.assemble p base = ws'.assemble p base := by
  unfold assemble reset
  rw [h]

/-- A new workspace shows a new assembler. -/
theorem Shows.withLimits (limits : Limits) : (withLimits limits).Shows (.withLimits limits) :=
  ((Workspace.withLimits limits).isClear_reset 0).shows rfl rfl rfl

/-- An event leaves a workspace that holds what the assembler shows. -/
theorem Shows.perform (h : ws.Shows a) (hevent : event.Reachable) :
    (ws.perform event).Shows (a.perform event) := by
  cases event with
  | assemble p base => exact (assemble_agrees h.limits_eq hevent.valid base).2
  | takeCode => exact { h with code_eq := rfl, label_eq := h.label_eq }

/-- A workspace goes on showing an assembler when the same happens to both. -/
theorem Shows.foldl_perform (h : ws.Shows a) (hhistory : ∀ event ∈ history, event.Reachable) :
    (history.foldl Workspace.perform ws).Shows (history.foldl Assembler.perform a) := by
  induction history generalizing ws a with
  | nil => exact h
  | cons event history ih =>
    exact ih (h.perform (hhistory event List.mem_cons_self)) fun event' hmem =>
      hhistory event' (List.mem_cons_of_mem _ hmem)

/-- **Reuse leaves no trace.** After any history a workspace comes to the same result as one that is
used for the first time, and holds the same, and so does an assembler, which shows what the
workspace holds. Whenever an error is reported, be it in the middle of the emission, nothing is
left. -/
theorem assemble_after (hhistory : ∀ event ∈ history, event.Reachable) (hp : p.Reachable)
    (limits : Limits) (base : UInt64) :
    (after limits history).assemble p base = (withLimits limits).assemble p base ∧
    (Assembler.after limits history).assemble p base =
      (Assembler.withLimits limits).assemble p base ∧
    ((after limits history).assemble p base).1 =
      embed ((Assembler.after limits history).assemble p base).1 ∧
    ((after limits history).assemble p base).2.Shows
      ((Assembler.after limits history).assemble p base).2 ∧
    ∀ e, ((Assembler.after limits history).assemble p base).1 = .error e →
      ((Assembler.after limits history).assemble p base).2.image = .empty ∧
        ((after limits history).assemble p base).2.IsClear := by
  have hshows : (after limits history).Shows (Assembler.after limits history) :=
    (Shows.withLimits limits).foldl_perform hhistory
  have hlimits := Assembler.limits_after limits history
  obtain ⟨hresult, hheld⟩ := assemble_agrees hshows.limits_eq hp.valid base
  refine ⟨assemble_eq_of_limits (hshows.limits_eq.trans hlimits) p base,
    Assembler.assemble_eq_of_limits hlimits p base, hresult, hheld, fun e he => ?_⟩
  rw [he] at hresult
  exact ⟨Assembler.image_of_error he, isClear_of_error hresult⟩

/-- A history with an image, whose bytes are taken, and a failure in a pass. -/
def trials : List Event :=
  [.assemble Program.pointers 0xFFFFFFFF80000000, .takeCode, .assemble Program.lowLoop 0]

/-- After that, a failure in the middle of the emission, behind two relocations, leaves nothing. -/
theorem isClear_after_trials :
    (∀ event ∈ trials, event.Reachable) ∧ Program.pointers.Reachable ∧
      ((after {} trials).assemble Program.pointers 0x100000000).1 =
        .error (.error (.displacementOutOfRange 0 0x100000000 4)) ∧
      ((after {} trials).assemble Program.pointers 0x100000000).2.IsClear := by
  have hhistory : ∀ event ∈ trials, event.Reachable := by
    intro event hevent
    simp only [trials, List.mem_cons, List.not_mem_nil, or_false] at hevent
    rcases hevent with rfl | rfl | rfl
    · exact Program.reachable_pointers
    · trivial
    · exact Program.reachable_lowLoop
  obtain ⟨-, hfresh, hresult, -, hclear⟩ :=
    assemble_after hhistory Program.reachable_pointers {} 0x100000000
  have herror : ((Assembler.after {} trials).assemble Program.pointers 0x100000000).1 =
      .error (.displacementOutOfRange 0 0x100000000 4) := by
    rw [hfresh]
    decide +kernel
  rw [herror] at hresult
  exact ⟨hhistory, Program.reachable_pointers, hresult, (hclear _ herror).2⟩

end Workspace

end X86Asm
