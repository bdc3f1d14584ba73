import X86Asm.Layout.Relaxation
import X86Asm.Proofs.Outcome

/-!
# The passes of a relaxation

`Program.Relaxing` relates the number of passes that were made to the layout that the last of them
arrived at, as long as none of them settled. Relaxation goes on from any of these states
(`Relaxing.relax_eq`), so what it returns is decided by the pass that follows the last of them
(`relax_outcome`).
-/

namespace X86Asm.Program

variable {p : Program} {base : UInt64} {limits : Limits} {n : Nat} {previous : Option Layout}
  {layout : Layout}

/-- The pass of a relaxation that goes by a layout. -/
def pass (p : Program) (base : UInt64) (limits : Limits) (previous : Option Layout) : Pass :=
  ⟨p, base.toNat, limits.maxOutputBytes.toNat, previous⟩

/-- A number of passes that succeed without settling, and the layout of the last of them. -/
inductive Relaxing (p : Program) (base : UInt64) (limits : Limits) : Nat → Option Layout → Prop
  | start : Relaxing p base limits 0 none
  | pass {n : Nat} {previous : Option Layout} {layout : Layout} :
      Relaxing p base limits n previous → n < limits.maxPasses.toNat →
      (p.pass base limits previous).run p.nodeList = .ok layout →
      isSettled p.nodeList previous layout = false → Relaxing p base limits (n + 1) (some layout)

/-- One pass of a relaxation. -/
theorem relaxFrom_succ (p : Program) (base : UInt64) (limits : Limits) (fuel begun : Nat)
    (previous : Option Layout) :
    p.relaxFrom base limits p.nodeList (fuel + 1) begun previous =
      match (p.pass base limits previous).run p.nodeList with
      | .error e => (.error e, begun + 1)
      | .ok layout =>
        if isSettled p.nodeList previous layout then (.ok layout, begun + 1)
        else p.relaxFrom base limits p.nodeList fuel (begun + 1) (some layout) := rfl

/-- One pass of a relaxation that has not used up its passes. -/
theorem relaxFrom_step (hn : n < limits.maxPasses.toNat) :
    p.relaxFrom base limits p.nodeList (limits.maxPasses.toNat - n) n previous =
      match (p.pass base limits previous).run p.nodeList with
      | .error e => (.error e, n + 1)
      | .ok layout =>
        if isSettled p.nodeList previous layout then (.ok layout, n + 1)
        else p.relaxFrom base limits p.nodeList (limits.maxPasses.toNat - (n + 1)) (n + 1)
          (some layout) := by
  obtain ⟨fuel, hfuel⟩ := Nat.exists_eq_add_of_lt hn
  have hcur : limits.maxPasses.toNat - n = fuel + 1 := by omega
  have hnext : limits.maxPasses.toNat - (n + 1) = fuel := by omega
  rw [hcur, hnext, relaxFrom_succ]

/-- Relaxation goes on from where it is under way. -/
theorem Relaxing.relax_eq (h : Relaxing p base limits n previous) :
    p.relax base limits =
      p.relaxFrom base limits p.nodeList (limits.maxPasses.toNat - n) n previous := by
  induction h with
  | start => rfl
  | pass _ hn hrun hsettled ih =>
    rw [ih, relaxFrom_step hn, hrun]
    exact if_neg (Bool.eq_false_iff.mp hsettled)

/-- A relaxation that has used up its passes gives up. -/
theorem Relaxing.relax_of_exhausted (h : Relaxing p base limits limits.maxPasses.toNat previous) :
    p.relax base limits =
      (.error (.relaxationLimit limits.maxPasses), limits.maxPasses.toNat) := by
  rw [h.relax_eq, Nat.sub_self]
  rfl

/-- A relaxation fails as its pass does. -/
theorem Relaxing.relax_of_error (h : Relaxing p base limits n previous)
    (hn : n < limits.maxPasses.toNat) {e : Error}
    (hrun : (p.pass base limits previous).run p.nodeList = .error e) :
    p.relax base limits = (.error e, n + 1) := by
  rw [h.relax_eq, relaxFrom_step hn, hrun]

/-- A relaxation that settles ends with the layout of its pass. -/
theorem Relaxing.relax_of_settled (h : Relaxing p base limits n previous)
    (hn : n < limits.maxPasses.toNat)
    (hrun : (p.pass base limits previous).run p.nodeList = .ok layout)
    (hsettled : isSettled p.nodeList previous layout = true) :
    p.relax base limits = (.ok layout, n + 1) := by
  rw [h.relax_eq, relaxFrom_step hn, hrun]
  exact if_pos hsettled

/-- The outcome of a relaxation: the passes are used up, or one fails, or one settles. -/
inductive Outcome (p : Program) (base : UInt64) (limits : Limits) :
    Except Error Layout × Nat → Prop
  | exhausted {previous : Option Layout} :
      Relaxing p base limits limits.maxPasses.toNat previous →
      Outcome p base limits (.error (.relaxationLimit limits.maxPasses), limits.maxPasses.toNat)
  | failed {n : Nat} {previous : Option Layout} {e : Error} :
      Relaxing p base limits n previous → n < limits.maxPasses.toNat →
      (p.pass base limits previous).run p.nodeList = .error e →
      Outcome p base limits (.error e, n + 1)
  | settled {n : Nat} {previous : Option Layout} {layout : Layout} :
      Relaxing p base limits n previous → n < limits.maxPasses.toNat →
      (p.pass base limits previous).run p.nodeList = .ok layout →
      isSettled p.nodeList previous layout = true → Outcome p base limits (.ok layout, n + 1)

/-- A relaxation that is under way has one of the outcomes, by induction on the passes that are
left. -/
theorem Relaxing.outcome (h : Relaxing p base limits n previous) {fuel : Nat}
    (hfuel : n + fuel = limits.maxPasses.toNat) :
    Outcome p base limits (p.relaxFrom base limits p.nodeList fuel n previous) := by
  induction fuel generalizing n previous with
  | zero =>
    obtain rfl : n = limits.maxPasses.toNat := hfuel
    exact .exhausted h
  | succ fuel ih =>
    have hn : n < limits.maxPasses.toNat := by omega
    rw [relaxFrom_succ]
    cases hrun : (p.pass base limits previous).run p.nodeList with
    | error e => exact .failed h hn hrun
    | ok layout =>
      simp only
      split
      · exact .settled h hn hrun ‹_›
      · rename_i hsettled
        exact ih (.pass h hn hrun (Bool.eq_false_iff.mpr hsettled)) (by omega)

/-- Every relaxation has one of the outcomes. -/
theorem relax_outcome (p : Program) (base : UInt64) (limits : Limits) :
    Outcome p base limits (p.relax base limits) :=
  Relaxing.start.outcome (Nat.zero_add _)

/-- A layout is that of a pass that settles. -/
theorem relax_eq_ok (h : (p.relax base limits).1 = .ok layout) :
    ∃ n previous, Relaxing p base limits n previous ∧ n < limits.maxPasses.toNat ∧
      (p.pass base limits previous).run p.nodeList = .ok layout ∧
      isSettled p.nodeList previous layout = true ∧ p.relax base limits = (.ok layout, n + 1) := by
  have houtcome := p.relax_outcome base limits
  generalize p.relax base limits = outcome at h houtcome
  cases houtcome with
  | exhausted => cases h
  | failed => cases h
  | @settled n previous layout' hrelaxing hn hrun hsettled =>
    obtain rfl := Except.ok.inj h
    exact ⟨n, previous, hrelaxing, hn, hrun, hsettled, rfl⟩

/-- Relaxation fails for the number of passes, or as a pass does. -/
theorem relax_eq_error {e : Error} (h : (p.relax base limits).1 = .error e) :
    e = .relaxationLimit limits.maxPasses ∨
      ∃ n previous, Relaxing p base limits n previous ∧ n < limits.maxPasses.toNat ∧
        (p.pass base limits previous).run p.nodeList = .error e := by
  have houtcome := p.relax_outcome base limits
  generalize p.relax base limits = outcome at h houtcome
  cases houtcome with
  | exhausted => exact .inl (Except.error.inj h).symm
  | @failed n previous e' hrelaxing hn hrun =>
    obtain rfl := Except.error.inj h
    exact .inr ⟨n, previous, hrelaxing, hn, hrun⟩
  | settled => cases h

end X86Asm.Program
