import Mathlib.Algebra.BigOperators.Intervals
import X86Asm.Proofs.Layout.BranchForm
import X86Asm.Proofs.Layout.Capacity
import X86Asm.Proofs.Program.Reachable

/-!
# Padding and slack

Padding follows from addresses and goes up and down from pass to pass. But what a gap takes and what
it could take besides add up to its capacity. So the slack in front of a node is what the gaps in
front of it leave unused, and two nodes are as far apart, slack included, as the bytes in between
that are no padding and the capacities in between (`Program.Balanced`).

Capacities stay the same, and what is no padding does not get longer. So from one pass to the next
no address goes up, and no two nodes move apart, slack included (`Layout.Tightens`). Both hold of
all passes that a relaxation completes (`Program.balanced_passes`).
-/

namespace X86Asm

variable {p : Program} {base : UInt64} {limits : Limits} {previous previous₀ : Option Layout}
  {layout layout₀ layout₁ : Layout} {walk₀ walk : Nat → Walk} {extent₀ extent : Nat → Extent}
  {node : Node} {place : Placement} {l : Label} {e : Extent} {i j k m : Nat}

/-- The address that a node would be at if all gaps in front were as wide as they can be. -/
def Placement.stretched (place : Placement) : Nat := place.address + place.slack

namespace Layout

/-- How many bytes of the node with an index only fill a gap. -/
def paddingAt (layout : Layout) (k : Nat) : Nat := layout.placements[k]?.elim 0 (·.padding)

/-- How many bytes of the node with an index do more than that. -/
def contentAt (layout : Layout) (k : Nat) : Nat :=
  layout.placements[k]?.elim 0 fun place => place.length - place.padding

/-- Nothing is at a higher address than in an earlier layout, and no two nodes are farther apart,
slack included. -/
structure Tightens (layout₀ layout : Layout) : Prop where
  size_eq : layout.placements.size = layout₀.placements.size
  address_le : ∀ ⦃i : Nat⦄ ⦃a₀ a : Placement⦄, layout₀.placements[i]? = some a₀ →
    layout.placements[i]? = some a → a.address ≤ a₀.address
  /-- The same labels are placed. -/
  isSome_eq : ∀ l, (layout.marks.find? l).isSome = (layout₀.marks.find? l).isSome
  mark_le : ∀ ⦃l : Label⦄ ⦃mark₀ mark : Mark⦄, layout₀.marks.find? l = some mark₀ →
    layout.marks.find? l = some mark → mark.address ≤ mark₀.address
  distance_le : ∀ ⦃i j : Nat⦄ ⦃a₀ b₀ a b : Placement⦄, i < j →
    layout₀.placements[i]? = some a₀ → layout₀.placements[j]? = some b₀ →
      layout.placements[i]? = some a → layout.placements[j]? = some b →
        b.stretched - a.stretched ≤ b₀.stretched - a₀.stretched

/-- A layout does not widen itself. -/
theorem Tightens.refl (layout : Layout) : Tightens layout layout where
  size_eq := rfl
  address_le := by
    intro i a₀ a ha₀ ha
    cases ha₀.symm.trans ha
    exact Nat.le_refl _
  isSome_eq _ := rfl
  mark_le := by
    intro l mark₀ mark hm₀ hm
    cases hm₀.symm.trans hm
    exact Nat.le_refl _
  distance_le := by
    intro i j a₀ b₀ a b hij ha₀ hb₀ ha hb
    cases ha₀.symm.trans ha
    cases hb₀.symm.trans hb
    exact Nat.le_refl _

/-- What a later layout places the earlier one places as well. -/
theorem Tightens.exists_placement (h : Tightens layout₀ layout)
    (hi : layout.placements[i]? = some place) : ∃ a₀, layout₀.placements[i]? = some a₀ := by
  obtain ⟨hlt, -⟩ := Array.getElem?_eq_some_iff.mp hi
  exact ⟨_, Array.getElem?_eq_getElem (h.size_eq ▸ hlt)⟩

/-- What tightens twice in a row tightens. -/
theorem Tightens.trans (h₀ : Tightens layout₀ layout₁) (h : Tightens layout₁ layout) :
    Tightens layout₀ layout where
  size_eq := h.size_eq.trans h₀.size_eq
  address_le := by
    intro i a₀ a ha₀ ha
    obtain ⟨a₁, ha₁⟩ := h.exists_placement ha
    exact Nat.le_trans (h.address_le ha₁ ha) (h₀.address_le ha₀ ha₁)
  isSome_eq l := (h.isSome_eq l).trans (h₀.isSome_eq l)
  mark_le := by
    intro l mark₀ mark hm₀ hm
    have hmarked : (layout₁.marks.find? l).isSome := by rw [← h.isSome_eq, hm, Option.isSome_some]
    obtain ⟨mark₁, hm₁⟩ := Option.isSome_iff_exists.mp hmarked
    exact Nat.le_trans (h.mark_le hm₁ hm) (h₀.mark_le hm₀ hm₁)
  distance_le := by
    intro i j a₀ b₀ a b hij ha₀ hb₀ ha hb
    obtain ⟨a₁, ha₁⟩ := h.exists_placement ha
    obtain ⟨b₁, hb₁⟩ := h.exists_placement hb
    exact Nat.le_trans (h.distance_le hij ha₁ hb₁ ha hb) (h₀.distance_le hij ha₀ hb₀ ha₁ hb₁)

end Layout

namespace Program

/-- How many bytes the node with an index could need as a gap. -/
def capacityAt (p : Program) (k : Nat) : Nat := p.nodeList[k]?.elim 0 p.gapCapacity

/-- The slacks of a layout balance the paddings of the gaps. -/
structure Balanced (p : Program) (layout : Layout) : Prop where
  size_eq : layout.placements.size = p.nodeList.length
  /-- No gap is wider than it can be. -/
  padding_le : ∀ k, layout.paddingAt k ≤ p.capacityAt k
  /-- The slack in front of a node is what the gaps in front of it leave unused. -/
  slack_eq : ∀ ⦃i : Nat⦄ ⦃a : Placement⦄, layout.placements[i]? = some a →
    a.slack = ∑ k ∈ Finset.range i, (p.capacityAt k - layout.paddingAt k)
  /-- Slack does not go down along the nodes. -/
  slack_le : ∀ ⦃i j : Nat⦄ ⦃a b : Placement⦄, i < j → layout.placements[i]? = some a →
    layout.placements[j]? = some b → a.slack ≤ b.slack
  /-- Slack included, two nodes are as far apart as what is in between is long without the padding,
  and the gaps in between are wide at most. -/
  stretched_eq : ∀ ⦃i j : Nat⦄ ⦃a b : Placement⦄, i < j → layout.placements[i]? = some a →
    layout.placements[j]? = some b →
      b.stretched = a.stretched +
        (∑ k ∈ Finset.Ico i j, layout.contentAt k + ∑ k ∈ Finset.Ico i j, p.capacityAt k)
  /-- Slack included, two nodes are at least as far apart as they are. -/
  distance_le : ∀ ⦃i j : Nat⦄ ⦃a b : Placement⦄, i < j → layout.placements[i]? = some a →
    layout.placements[j]? = some b →
      a.address ≤ b.address ∧ b.address - a.address ≤ b.stretched - a.stretched
  /-- A label is where the node is that places it. -/
  find?_marks_iff : ∀ (l : Label) (mark : Mark), layout.marks.find? l = some mark ↔
    ∃ (i : Nat) (a : Placement), p.nodeList[i]? = some (.label l) ∧
      layout.placements[i]? = some a ∧ mark = ⟨a.address, a.slack⟩

end Program

namespace Pass

/-! ## A pass balances padding and slack -/

namespace Arrival

section

variable (h : (p.pass base limits previous).Arrival p.nodeList layout walk extent)

include h

/-- The padding in the layout is that of the pass. -/
theorem paddingAt_eq (hk : k < p.nodeList.length) :
    layout.paddingAt k = (extent k).padding := by
  rw [Layout.paddingAt, h.placement hk, Option.elim_some]

/-- What is no padding in the layout is so in the pass. -/
theorem contentAt_eq (hk : k < p.nodeList.length) :
    layout.contentAt k = (extent k).length - (extent k).padding := by
  rw [Layout.contentAt, h.placement hk, Option.elim_some]

/-- The placement of a node is that of the walk in front of it. -/
theorem eq_of_placement (ha : layout.placements[i]? = some place) :
    i < p.nodeList.length ∧ place.address = (walk i).address ∧ place.slack = (walk i).slack := by
  obtain ⟨hlt, -⟩ := Array.getElem?_eq_some_iff.mp ha
  rw [h.size_placements] at hlt
  obtain rfl := Option.some.inj (ha.symm.trans (h.placement hlt))
  exact ⟨hlt, rfl, rfl⟩

variable (hp : p.Valid)

include hp

/-- The pass gives a gap its capacity, and no more padding than that. -/
theorem capacityAt_eq (hk : k < p.nodeList.length) :
    p.capacityAt k = (extent k).capacity ∧ (extent k).padding ≤ (extent k).capacity := by
  obtain ⟨node, hn⟩ := h.trace.node_eq hk
  obtain ⟨hcap, hpad⟩ := capacity_of_extent (fun _ hg => hp.gap_pos hn hg)
    (h.trace.extent_eq k node hk hn)
  rw [Program.capacityAt, hn, Option.elim_some]
  exact ⟨hcap.symm, hpad⟩

/-- The slack in front of a place is what the gaps in front of it leave unused. -/
theorem slack_eq_sum (hj : j ≤ p.nodeList.length) :
    (walk j).slack = ∑ k ∈ Finset.range j, (p.capacityAt k - layout.paddingAt k) := by
  induction j with
  | zero =>
    rw [h.trace.slack_zero]
    rfl
  | succ j ih =>
    obtain ⟨hcap, -⟩ := h.capacityAt_eq hp hj
    rw [h.trace.slack_succ hj, Finset.sum_range_succ, ih (Nat.le_of_succ_le hj), hcap,
      h.paddingAt_eq hj]

/-- Slack included, a node is as long as it is without padding, and as its gap can be wide. -/
theorem span_eq_add (hk : k < p.nodeList.length) :
    (extent k).span = layout.contentAt k + p.capacityAt k := by
  obtain ⟨hcap, hpad⟩ := h.capacityAt_eq hp hk
  obtain ⟨node, hn⟩ := h.trace.node_eq hk
  have hlength := padding_le_length (h.trace.extent_eq k node hk hn)
  rw [Extent.span, h.contentAt_eq hk, hcap]
  omega

/-- Slack included, the way from one node to another is what is in between without padding, and the
gaps as wide as they can be. -/
theorem stretched_eq_add (hij : i ≤ j) (hj : j ≤ p.nodeList.length) :
    (walk j).stretched = (walk i).stretched +
      (∑ k ∈ Finset.Ico i j, layout.contentAt k + ∑ k ∈ Finset.Ico i j, p.capacityAt k) := by
  rw [h.trace.stretched_eq_sum hij hj, ← Finset.sum_add_distrib]
  refine congrArg _ (Finset.sum_congr rfl fun k hk => ?_)
  exact h.span_eq_add hp (Nat.lt_of_lt_of_le (Finset.mem_Ico.mp hk).2 hj)

/-- A pass balances padding and slack. -/
theorem balanced : p.Balanced layout where
  size_eq := h.size_placements
  padding_le := by
    intro k
    rcases Nat.lt_or_ge k p.nodeList.length with hk | hk
    · obtain ⟨hcap, hpad⟩ := h.capacityAt_eq hp hk
      rw [h.paddingAt_eq hk, hcap]
      exact hpad
    · -- behind the last node there is no padding
      rw [Layout.paddingAt, Array.getElem?_eq_none (h.size_placements ▸ hk)]
      exact Nat.zero_le _
  slack_eq := by
    intro i a ha
    obtain ⟨hlt, -, hslack⟩ := h.eq_of_placement ha
    rw [hslack, h.slack_eq_sum hp (Nat.le_of_lt hlt)]
  slack_le := by
    intro i j a b hij ha hb
    obtain ⟨-, -, hi⟩ := h.eq_of_placement ha
    obtain ⟨hlt, -, hj⟩ := h.eq_of_placement hb
    rw [hi, hj]
    exact (h.trace.le_of_le (Nat.le_of_lt hij) (Nat.le_of_lt hlt)).2
  stretched_eq := by
    intro i j a b hij ha hb
    obtain ⟨-, hi, hi'⟩ := h.eq_of_placement ha
    obtain ⟨hlt, hj, hj'⟩ := h.eq_of_placement hb
    rw [Placement.stretched, Placement.stretched, hi, hi', hj, hj']
    exact h.stretched_eq_add hp (Nat.le_of_lt hij) (Nat.le_of_lt hlt)
  distance_le := by
    intro i j a b hij ha hb
    obtain ⟨-, hi, hi'⟩ := h.eq_of_placement ha
    obtain ⟨hlt, hj, hj'⟩ := h.eq_of_placement hb
    obtain ⟨haddress, hslack⟩ := h.trace.le_of_le (Nat.le_of_lt hij) (Nat.le_of_lt hlt)
    unfold Placement.stretched
    omega
  find?_marks_iff := by
    intro l mark
    rw [h.find?_marks_iff hp.uniqueLabels]
    constructor
    · rintro ⟨i, hn, rfl⟩
      obtain ⟨hlt, -⟩ := List.getElem?_eq_some_iff.mp hn
      exact ⟨i, _, hn, h.placement hlt, rfl⟩
    · rintro ⟨i, a, hn, ha, rfl⟩
      obtain ⟨-, hi, hi'⟩ := h.eq_of_placement ha
      exact ⟨i, hn, by rw [hi, hi']⟩

end

/-! ## A pass tightens the layout of the pass before -/

/-- A pass tightens the layout that it goes by. -/
theorem tightens (hp : p.Valid)
    (h₀ : (p.pass base limits previous).Arrival p.nodeList layout₀ walk₀ extent₀)
    (h : (p.pass base limits (some layout₀)).Arrival p.nodeList layout walk extent) :
    layout₀.Tightens layout where
  size_eq := h.size_placements.trans h₀.size_placements.symm
  address_le := by
    intro i a₀ a ha₀ ha
    obtain ⟨hlt, hi, -⟩ := h.eq_of_placement ha
    obtain ⟨-, hi₀, -⟩ := h₀.eq_of_placement ha₀
    rw [hi, hi₀]
    exact h.trace.address_le hp h₀ (Nat.le_of_lt hlt)
  isSome_eq := by
    intro l
    rw [Bool.eq_iff_iff, Option.isSome_iff_exists, Option.isSome_iff_exists]
    simp only [h.find?_marks_iff hp.uniqueLabels, h₀.find?_marks_iff hp.uniqueLabels]
    constructor
    · rintro ⟨_, i, hn, -⟩
      exact ⟨_, i, hn, rfl⟩
    · rintro ⟨_, i, hn, -⟩
      exact ⟨_, i, hn, rfl⟩
  mark_le := by
    intro l mark₀ mark hm₀ hm
    obtain ⟨i, hn, rfl⟩ := (h.find?_marks_iff hp.uniqueLabels).mp hm
    obtain ⟨i₀, hn₀, rfl⟩ := (h₀.find?_marks_iff hp.uniqueLabels).mp hm₀
    -- one node places the label, so both marks are at its walk
    obtain rfl := hp.uniqueLabels i i₀ l hn hn₀
    obtain ⟨hlt, -⟩ := List.getElem?_eq_some_iff.mp hn
    exact h.trace.address_le hp h₀ (Nat.le_of_lt hlt)
  distance_le := by
    intro i j a₀ b₀ a b hij ha₀ hb₀ ha hb
    obtain ⟨-, hi₀, hi₀'⟩ := h₀.eq_of_placement ha₀
    obtain ⟨-, hj₀, hj₀'⟩ := h₀.eq_of_placement hb₀
    obtain ⟨-, hi, hi'⟩ := h.eq_of_placement ha
    obtain ⟨hlt, hj, hj'⟩ := h.eq_of_placement hb
    have hle := h.trace.stretched_le hp h₀ (Nat.le_of_lt hij) (Nat.le_of_lt hlt)
    unfold Placement.stretched
    unfold Walk.stretched at hle
    omega

end Arrival

end Pass

namespace Program

/-! ## All passes -/

/-- Every pass that is completed balances padding and slack. -/
theorem Completes.balanced (h : p.Completes base limits k previous layout) (hp : p.Valid) :
    p.Balanced layout := by
  obtain ⟨walk, extent, harrival⟩ := h.exists_arrival
  exact harrival.balanced hp

/-- Every later pass tightens the layout of an earlier one. -/
theorem Completes.tightens (hp : p.Valid) (h₀ : p.Completes base limits k previous₀ layout₀)
    (h : p.Completes base limits m previous layout) (hkm : k ≤ m) : layout₀.Tightens layout := by
  refine h₀.induction_later (motive := layout₀.Tightens) (.refl layout₀)
    (fun hearlier hlater hprev => ?_) h hkm
  obtain ⟨walk₁, extent₁, h₁⟩ := hearlier.exists_arrival
  obtain ⟨walk₂, extent₂, h₂⟩ := hlater.exists_arrival
  exact hprev.trans (h₁.tightens hp h₂)

/-- **Slack.** Each pass that a relaxation completes balances padding and slack. No address goes up
from a pass to a later one, such as the next, and no two nodes move apart, slack included. -/
theorem balanced_passes (hp : p.Reachable) (h₀ : p.Completes base limits k previous₀ layout₀)
    (h : p.Completes base limits m previous layout) (hkm : k ≤ m) :
    p.Balanced layout₀ ∧ p.Balanced layout ∧ layout₀.Tightens layout :=
  ⟨h₀.balanced hp.valid, h.balanced hp.valid, h₀.tightens hp.valid h hkm⟩

/-- A branch over a gap. At the base 0x1003 there is no padding in the first pass, in which the
branch is near, and as much as there can be in the second. -/
def paddedHop : Program :=
  [.createLabel, .emit (.instruction ⟨.jmp, [.label ⟨0⟩]⟩), .emit (.align 4 .code),
    .emit (.label ⟨0⟩)].foldl Operation.apply (Program.empty .long64)

/-- The branch over the gap is put together by operations. -/
theorem reachable_paddedHop : paddedHop.Reachable := by
  refine reachable_foldl .long64 fun op hop => ?_
  simp only [List.mem_cons, List.not_mem_nil, or_false] at hop
  rcases hop with rfl | rfl | rfl | rfl <;> trivial

/-- Padding goes up from one pass of `paddedHop` to the next, and nothing else does. -/
theorem balanced_paddedHop :
    paddedHop.Reachable ∧ ∃ layout₀ layout, paddedHop.Completes 0x1003 {} 1 none layout₀ ∧
      paddedHop.Completes 0x1003 {} 2 (some layout₀) layout ∧
        layout₀.paddingAt 1 = 0 ∧ layout.paddingAt 1 = 3 ∧
          paddedHop.Balanced layout₀ ∧ paddedHop.Balanced layout ∧ layout₀.Tightens layout := by
  have hruns : ((paddedHop.pass 0x1003 {} none).run paddedHop.nodeList).toOption.bind
      (fun layout₀ =>
        ((paddedHop.pass 0x1003 {} (some layout₀)).run paddedHop.nodeList).toOption.map
          fun layout => (isSettled paddedHop.nodeList none layout₀, layout₀.paddingAt 1,
            layout.paddingAt 1)) = some (false, 0, 3) := by
    decide +kernel
  obtain ⟨layout₀, hfirst, hruns⟩ := Option.bind_eq_some_iff.mp hruns
  obtain ⟨layout, hsecond, hvalues⟩ := Option.map_eq_some_iff.mp hruns
  simp only [Prod.mk.injEq] at hvalues
  obtain ⟨hunsettled, hpadding₀, hpadding⟩ := hvalues
  have hfirst := toOption_eq_some_iff.mp hfirst
  have hsecond := toOption_eq_some_iff.mp hsecond
  have h₀ : paddedHop.Completes 0x1003 {} 1 none layout₀ := .pass .start (by decide) hfirst
  have h : paddedHop.Completes 0x1003 {} 2 (some layout₀) layout :=
    .pass (.pass .start (by decide) hfirst hunsettled) (by decide) hsecond
  exact ⟨reachable_paddedHop, layout₀, layout, h₀, h, hpadding₀, hpadding,
    balanced_passes reachable_paddedHop h₀ h (by decide)⟩

end Program

end X86Asm
