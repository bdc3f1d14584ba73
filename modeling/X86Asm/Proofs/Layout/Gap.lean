import X86Asm.Layout.Pass
import X86Asm.Proofs.Layout.Alignment
import X86Asm.Proofs.Outcome

/-!
# Gaps

Alignment directives and the starts of sections are the gaps of a program. The padding of a gap is
the least that leads to a multiple of the alignment, it depends on the address only through its
remainder, and it is never more than the capacity of the gap.
-/

namespace X86Asm

variable {address address' n : Nat} {alignment : UInt32} {extent extent' : Extent}

/-- The alignment of a gap. -/
def Program.gap? (p : Program) : Node → Option UInt32
  | .align alignment _ => some alignment
  | .sectionStart s => some ((p.sectionAlignment? s).getD 1)
  | _ => none

/-- How many bytes a node takes in all if gaps are as wide as they can be. -/
def Extent.span (e : Extent) : Nat := e.length + (e.capacity - e.padding)

namespace Pass

/-- A gap goes from the address to the next multiple of its alignment. -/
theorem extent_of_gap {pass : Pass} {node : Node} (h : pass.program.gap? node = some alignment)
    (w : Walk) : pass.extent w node = gapExtent w.address alignment := by
  cases node with
  | align a filler =>
    cases h
    rfl
  | sectionStart s =>
    cases h
    rfl
  | _ => cases h

/-- A gap ends at the next multiple of its alignment, and all of it is padding. -/
theorem gapExtent_eq_ok (h : gapExtent address alignment = .ok extent) :
    extent.length = roundUp address alignment.toNat - address ∧ extent.padding = extent.length ∧
      extent.capacity = alignment.toNat - 1 ∧ roundUp address alignment.toNat < addressSpace := by
  obtain ⟨aligned, ha, hextent⟩ := bind_eq_ok_iff.mp h
  obtain ⟨rfl, hlt⟩ := alignUp_eq_ok_iff.mp ha
  cases hextent
  exact ⟨rfl, rfl, rfl, hlt⟩

/-- A gap fails only for the lack of a multiple of its alignment. -/
theorem gapExtent_eq_error {e : Error} (h : gapExtent address alignment = .error e) :
    e = .alignmentPastEnd address alignment := by
  rcases bind_eq_error_iff.mp h with h | ⟨aligned, -, h⟩
  · exact (alignUp_eq_error_iff.mp h).1
  · cases h

variable (hpos : 0 < alignment.toNat) (h : gapExtent address alignment = .ok extent)

include hpos h

/-- A gap ends where rounding up leads to. -/
theorem gapExtent_end : address + extent.length = roundUp address alignment.toNat := by
  obtain ⟨hlen, -⟩ := gapExtent_eq_ok h
  have := le_roundUp address hpos
  omega

/-- A gap ends at a multiple of its alignment. -/
theorem dvd_gapExtent_end : alignment.toNat ∣ address + extent.length :=
  gapExtent_end hpos h ▸ dvd_roundUp ..

/-- No shorter padding leads to a multiple of the alignment. -/
theorem gapExtent_least (hn : alignment.toNat ∣ address + n) : extent.length ≤ n := by
  have hend := gapExtent_end hpos h
  have := roundUp_le hpos (Nat.le_add_right address n) hn
  omega

/-- No gap is wider than it can be. -/
theorem gapExtent_padding_le : extent.padding ≤ extent.capacity := by
  obtain ⟨-, hpad, hcap, -⟩ := gapExtent_eq_ok h
  have hend := gapExtent_end hpos h
  have := roundUp_le_add address alignment.toNat
  omega

/-- Slack included, a gap is as wide as it can be. -/
theorem gapExtent_span : extent.span = alignment.toNat - 1 := by
  have hle := gapExtent_padding_le hpos h
  obtain ⟨-, hpad, hcap, -⟩ := gapExtent_eq_ok h
  rw [Extent.span]
  omega

/-- The gap behind a lower address does not end at a higher one. -/
theorem gapExtent_mono (h' : gapExtent address' alignment = .ok extent')
    (hle : address ≤ address') :
    address + extent.length ≤ address' + extent'.length := by
  rw [gapExtent_end hpos h]
  have hdvd := dvd_gapExtent_end hpos h'
  exact roundUp_le hpos (by omega) hdvd

/-- Addresses with the same remainder have the same gap. -/
theorem gapExtent_congr (h' : gapExtent address' alignment = .ok extent')
    (hmod : address % alignment.toNat = address' % alignment.toNat) : extent = extent' := by
  -- the same paddings lead to a multiple, so the least of them is the same
  have hcongr : ∀ n, alignment.toNat ∣ address + n ↔ alignment.toNat ∣ address' + n := by
    intro n
    rw [Nat.dvd_iff_mod_eq_zero, Nat.dvd_iff_mod_eq_zero, Nat.add_mod, hmod, ← Nat.add_mod]
  have hle := gapExtent_least hpos h ((hcongr _).mpr (dvd_gapExtent_end hpos h'))
  have hge := gapExtent_least hpos h' ((hcongr _).mp (dvd_gapExtent_end hpos h))
  obtain ⟨-, hpad, hcap, -⟩ := gapExtent_eq_ok h
  obtain ⟨-, hpad', hcap', -⟩ := gapExtent_eq_ok h'
  obtain ⟨length, padding, capacity⟩ := extent
  obtain ⟨length', padding', capacity'⟩ := extent'
  simp only at *
  rw [hpad, hpad', hcap, hcap', Nat.le_antisymm hle hge]

end Pass

end X86Asm
