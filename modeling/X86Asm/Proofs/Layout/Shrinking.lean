import X86Asm.Proofs.Layout.Relaxing
import X86Asm.Proofs.Layout.Trace
import X86Asm.Proofs.Program.Validity

/-!
# Layouts shrink from pass to pass

A pass that goes by a layout gives no node a greater span than the layout has it: a gap has the
same span wherever it is, an instruction may not grow, and all other nodes have a fixed length. So
addresses do not go up (`Trace.address_le`) and no two places move apart, if each gap is taken to
be as wide as it can be (`Trace.stretched_le`). Padding by itself may well grow.
-/

namespace X86Asm

variable {p : Program} {base : UInt64} {limits : Limits} {previous : Option Layout}
  {layout : Layout} {walk₀ walk : Nat → Walk} {extent₀ extent : Nat → Extent} {node : Node}
  {i j k : Nat}

/-- A pass starts at an address. -/
theorem Program.pass_base_lt (p : Program) (base : UInt64) (limits : Limits)
    (previous : Option Layout) : (p.pass base limits previous).base < addressSpace :=
  base.toNat_lt

/-- No label is placed by two nodes of a valid program. -/
theorem Program.Valid.uniqueLabels (hp : p.Valid) : UniqueLabels p.nodeList :=
  fun _ _ _ => hp.label_unique

/-- The alignments of a valid program are powers of two. -/
theorem Program.Valid.gap_isPowerOfTwo (hp : p.Valid) (hn : p.nodeList[i]? = some node)
    {alignment : UInt32} (hg : p.gap? node = some alignment) : isPowerOfTwo alignment := by
  cases node with
  | align a filler =>
    cases hg
    exact (hp.admits_getElem? hn).inDomain
  | sectionStart s =>
    obtain ⟨a, ha, hpow⟩ := hp.sectionAlignment hn
    rw [gap?, ha] at hg
    cases hg
    exact hpow
  | _ => cases hg

/-- The alignments of a valid program are positive. -/
theorem Program.Valid.gap_pos (hp : p.Valid) (hn : p.nodeList[i]? = some node)
    {alignment : UInt32} (hg : p.gap? node = some alignment) : 0 < alignment.toNat :=
  isPowerOfTwo_pos (hp.gap_isPowerOfTwo hn hg)

/-- A gap of the program is one of its passes. -/
theorem Program.extent_of_gap {alignment : UInt32} (hg : p.gap? node = some alignment) (w : Walk) :
    (p.pass base limits previous).extent w node = Pass.gapExtent w.address alignment :=
  Pass.extent_of_gap hg w

namespace Pass

/-- Nodes that are neither instructions nor gaps have the same extent in all passes. -/
theorem extent_eq_of_rigid (hi : node.isInstruction = false) (hg : p.gap? node = none)
    (pass pass' : Pass) (w w' : Walk) : pass.extent w node = pass'.extent w' node := by
  cases node with
  | instruction i => cases hi
  | sectionStart s => cases hg
  | align alignment filler => cases hg
  | _ => rfl

/-- Only gaps have padding. -/
theorem padding_of_not_gap {pass : Pass} {w : Walk} {e : Extent} (hg : p.gap? node = none)
    (he : pass.extent w node = .ok e) : e.padding = 0 ∧ e.capacity = 0 := by
  cases node with
  | instruction i =>
    obtain ⟨encoded, -, he⟩ := bind_eq_ok_iff.mp he
    cases he
    exact ⟨rfl, rfl⟩
  | sectionStart s => cases hg
  | align alignment filler => cases hg
  | _ =>
    cases he
    exact ⟨rfl, rfl⟩

/-- Padding is part of the length. -/
theorem padding_le_length {pass : Pass} {w : Walk} {e : Extent}
    (h : pass.extent w node = .ok e) : e.padding ≤ e.length := by
  cases hg : pass.program.gap? node with
  | some alignment =>
    rw [extent_of_gap hg] at h
    obtain ⟨-, hpad, -⟩ := gapExtent_eq_ok h
    exact Nat.le_of_eq hpad
  | none =>
    obtain ⟨hpad, -⟩ := padding_of_not_gap hg h
    exact hpad ▸ Nat.zero_le _

/-- Without a gap there is no slack to be added to the length. -/
theorem span_of_not_gap {pass : Pass} {w : Walk} {e : Extent} (hg : p.gap? node = none)
    (he : pass.extent w node = .ok e) : e.span = e.length := by
  obtain ⟨hpad, hcap⟩ := padding_of_not_gap hg he
  rw [Extent.span, hpad, hcap]
  rfl

/-- What a pass knows about a node from the pass before. -/
theorem Trace.last?_eq (h₀ : (p.pass base limits previous).Arrival p.nodeList layout walk₀ extent₀)
    (h : (p.pass base limits (some layout)).Trace p.nodeList k walk extent) (hi : i ≤ k)
    (hlt : i < p.nodeList.length) :
    (p.pass base limits (some layout)).last? (walk i) = some
      ⟨(walk₀ i).address, (extent₀ i).length, (extent₀ i).padding, (walk₀ i).slack⟩ := by
  show layout.placements[(walk i).count]? = _
  rw [h.count_eq hi, h₀.placement hlt]

section

variable (hp : p.Valid)
  (h₀ : (p.pass base limits previous).Arrival p.nodeList layout walk₀ extent₀)
  (h : (p.pass base limits (some layout)).Trace p.nodeList k walk extent)

include h₀ h

/-- What is not a gap does not get longer. -/
theorem Trace.length_le (hi : i < k) (hn : p.nodeList[i]? = some node)
    (hg : p.gap? node = none) : (extent i).length ≤ (extent₀ i).length := by
  have hlt := Nat.lt_of_lt_of_le hi h.le_length
  cases hinstr : node.isInstruction with
  | true =>
    have hgrowth := h.growth i node hi hn
    unfold checkGrowth at hgrowth
    rw [Trace.last?_eq h₀ h (Nat.le_of_lt hi) hlt] at hgrowth
    simp only [hinstr, Bool.true_and, decide_eq_true_eq] at hgrowth
    split at hgrowth
    · cases hgrowth
    · omega
  | false =>
    have he := h.extent_eq i node hi hn
    rw [extent_eq_of_rigid hinstr hg _ (p.pass base limits previous) _ (walk₀ i),
      h₀.trace.extent_eq i node hlt hn] at he
    exact Nat.le_of_eq (congrArg Extent.length (Except.ok.inj he).symm)

include hp

/-- Slack included, no node gets wider from pass to pass. -/
theorem Trace.span_le (hi : i < k) : (extent i).span ≤ (extent₀ i).span := by
  obtain ⟨node, hn⟩ := h.node_eq hi
  have hlt := Nat.lt_of_lt_of_le hi h.le_length
  have he := h.extent_eq i node hi hn
  have he₀ := h₀.trace.extent_eq i node hlt hn
  cases hg : p.gap? node with
  | none =>
    rw [span_of_not_gap hg he, span_of_not_gap hg he₀]
    exact Trace.length_le h₀ h hi hn hg
  | some alignment =>
    have hpos := hp.gap_pos hn hg
    rw [Program.extent_of_gap hg] at he he₀
    exact Nat.le_of_eq ((gapExtent_span hpos he).trans (gapExtent_span hpos he₀).symm)

/-- Addresses do not go up. -/
theorem Trace.address_le (hi : i ≤ k) : (walk i).address ≤ (walk₀ i).address := by
  induction i with
  | zero => exact Nat.le_of_eq (h.address_zero.trans h₀.trace.address_zero.symm)
  | succ i ih =>
    have hprev := ih (Nat.le_of_succ_le hi)
    obtain ⟨node, hn⟩ := h.node_eq hi
    have hlt := Nat.lt_of_lt_of_le hi h.le_length
    rw [h.address_succ hi, h₀.trace.address_succ hlt]
    cases hg : p.gap? node with
    | none =>
      have := Trace.length_le h₀ h hi hn hg
      omega
    | some alignment =>
      have he := h.extent_eq i node hi hn
      have he₀ := h₀.trace.extent_eq i node hlt hn
      rw [Program.extent_of_gap hg] at he he₀
      exact gapExtent_mono (hp.gap_pos hn hg) he he₀ hprev

/-- No two places move apart if gaps are as wide as they can be. -/
theorem Trace.stretched_le (hij : i ≤ j) (hj : j ≤ k) :
    (walk j).stretched + (walk₀ i).stretched ≤ (walk₀ j).stretched + (walk i).stretched := by
  induction j with
  | zero =>
    obtain rfl := Nat.le_zero.mp hij
    omega
  | succ j ih =>
    rcases Nat.le_or_eq_of_le_succ hij with hij | rfl
    · have hprev := ih hij (Nat.le_of_succ_le hj)
      have hspan := Trace.span_le hp h₀ h hj
      have hlt := Nat.lt_of_lt_of_le hj h.le_length
      rw [h.stretched_succ hj, h₀.trace.stretched_succ hlt]
      omega
    · exact Nat.le_of_eq (Nat.add_comm _ _)

end

end Pass

end X86Asm
