import Mathlib.Data.Finset.Card
import X86Asm.Proofs.Encoding.Jump
import X86Asm.Proofs.Layout.Divergence
import X86Asm.Proofs.Layout.Lockstep

/-!
# Relaxation settles

Padding goes up and down from pass to pass, but it follows from the lengths of the instructions: a
pass that gives every instruction the length that it had arrives at the layout of the pass before
(`Arrival.extents_eq_previous`). So a pass that does not settle makes some jump short that was near
(`Arrival.exists_shortened`), and a jump that is short stays short (`Arrival.short_of_short`).

The jumps that are short are thus more after each pass that does not settle, except for the first
(`Relaxing.le_card_shortJumps`), and there are not more of them than there are jumps.
-/

namespace X86Asm

variable {p : Program} {base : UInt64} {limits : Limits} {previous : Option Layout}
  {layout layout₀ : Layout} {walk₀ walk : Nat → Walk} {extent₀ extent : Nat → Extent} {node : Node}
  {instr : Instruction} {l : Label} {i k m n : Nat}

/-- The number of bytes that a layout gives the node with an index. -/
def Layout.length? (layout : Layout) (i : Nat) : Option Nat :=
  layout.placements[i]?.map (·.length)

namespace Program

/-- The number of jumps to labels. -/
def jumps (p : Program) : Nat := p.nodeList.countP Node.isJump

/-- The pass with a number, counted from one, goes by the layout of the pass before and arrives at
another one. -/
inductive Completes (p : Program) (base : UInt64) (limits : Limits) :
    Nat → Option Layout → Layout → Prop
  | pass {n : Nat} {previous : Option Layout} {layout : Layout} :
      p.Relaxing base limits n previous → n < limits.maxPasses.toNat →
      (p.pass base limits previous).run p.nodeList = .ok layout →
      Completes p base limits (n + 1) previous layout

/-- The jumps that are short in a layout. -/
def shortJumps (p : Program) (layout : Layout) : Finset Nat :=
  (Finset.range p.nodeList.length).filter fun i =>
    p.nodeList[i]?.any Node.isJump ∧ layout.length? i = some 2

/-- The short jumps of a layout are the jumps that take two bytes. -/
theorem mem_shortJumps : i ∈ p.shortJumps layout ↔
    ∃ instr l, p.nodeList[i]? = some (.instruction instr) ∧ instr.jumpTarget? = some l ∧
      layout.length? i = some 2 := by
  rw [shortJumps, Finset.mem_filter, Finset.mem_range, Option.any_eq_true]
  constructor
  · rintro ⟨-, ⟨node, hn, hjump⟩, hlength⟩
    obtain ⟨instr, l, rfl, hl⟩ := Node.isJump_eq_true hjump
    exact ⟨instr, l, hn, hl, hlength⟩
  · rintro ⟨instr, l, hn, hl, hlength⟩
    obtain ⟨hlt, -⟩ := List.getElem?_eq_some_iff.mp hn
    exact ⟨hlt, ⟨_, hn, Option.isSome_iff_exists.mpr ⟨l, hl⟩⟩, hlength⟩

/-- The positions of the jumps are as many as there are jumps. -/
theorem card_filter_isJump (p : Program) :
    ((Finset.range p.nodeList.length).filter fun i => p.nodeList[i]?.any Node.isJump).card =
      p.jumps := by
  have hcount : ∀ k ≤ p.nodeList.length,
      ((Finset.range k).filter fun i => p.nodeList[i]?.any Node.isJump).card =
        (p.nodeList.take k).countP Node.isJump := by
    intro k hk
    induction k with
    | zero => simp
    | succ k ih =>
      obtain ⟨node, hn⟩ : ∃ node, p.nodeList[k]? = some node :=
        ⟨_, List.getElem?_eq_getElem hk⟩
      rw [Finset.range_add_one, Finset.filter_insert, List.take_add_one, List.countP_append,
        ← ih (Nat.le_of_succ_le hk), hn]
      cases hjump : node.isJump <;> simp [hjump]
  rw [jumps, hcount _ (Nat.le_refl _), List.take_length]

/-- There are not more short jumps than jumps. -/
theorem card_shortJumps_le (p : Program) (layout : Layout) :
    (p.shortJumps layout).card ≤ p.jumps := by
  rw [← p.card_filter_isJump]
  refine Finset.card_le_card fun i hi => ?_
  rw [shortJumps, Finset.mem_filter] at hi
  rw [Finset.mem_filter]
  exact ⟨hi.1, hi.2.1⟩

end Program

namespace Pass

/-- A layout has a node as long as its pass made it. -/
theorem Arrival.length?_eq {pass : Pass} {nodes : List Node}
    (h : pass.Arrival nodes layout walk extent) (hi : i < nodes.length) :
    layout.length? i = some (extent i).length := by
  rw [Layout.length?, h.placement hi]
  rfl

/-- A jump is short or near. -/
theorem Arrival.length_jump
    (h : (p.pass base limits previous).Arrival p.nodeList layout walk extent)
    (hn : p.nodeList[i]? = some (.instruction instr)) (hl : instr.jumpTarget? = some l) :
    ((p.pass base limits previous).Reaches (walk i) l ∧ (extent i).length = 2) ∨
      (¬ (p.pass base limits previous).Reaches (walk i) l ∧
        (extent i).length = instr.nearLength p.mode) := by
  obtain ⟨hlt, -⟩ := List.getElem?_eq_some_iff.mp hn
  obtain ⟨b, ht, hshort, rfl, hnear⟩ := Instruction.template_of_jumpTarget hl p.mode
  rw [← hnear]
  exact length_branch (h.trace.inSpace (p.pass_base_lt base limits previous) (Nat.le_of_lt hlt))
    (h.trace.extent_eq i _ hlt hn) ht hshort

section

variable (h₀ : (p.pass base limits previous).Arrival p.nodeList layout₀ walk₀ extent₀)
  (h : (p.pass base limits (some layout₀)).Arrival p.nodeList layout walk extent)

include h₀ h

/-- If the instructions have the lengths that they had, everything is where it was. -/
theorem Arrival.extents_eq_previous
    (hsame : ∀ i instr, p.nodeList[i]? = some (.instruction instr) →
      (extent i).length = (extent₀ i).length) (hi : i < p.nodeList.length) :
    extent i = extent₀ i := by
  induction i using Nat.strong_induction_on with
  | _ i ih =>
    obtain ⟨haddress, -⟩ := h.trace.shift h₀.trace (Nat.le_of_lt hi) (Nat.le_of_lt hi)
      fun j hj => ih j hj (Nat.lt_trans hj hi)
    have haddress : (walk i).address = (walk₀ i).address := Nat.add_right_cancel haddress
    obtain ⟨node, hn⟩ := h.trace.node_eq hi
    have he := h.trace.extent_eq i node hi hn
    have he₀ := h₀.trace.extent_eq i node hi hn
    cases hg : p.gap? node with
    | some alignment =>
      -- the padding of a gap follows from its address
      rw [Program.extent_of_gap hg, haddress] at he
      rw [Program.extent_of_gap hg, he] at he₀
      exact Except.ok.inj he₀
    | none =>
      cases hinstr : node.isInstruction with
      | false =>
        rw [extent_eq_of_rigid hinstr hg _ (p.pass base limits previous) _ (walk₀ i), he₀] at he
        exact (Except.ok.inj he).symm
      | true =>
        cases node with
        | instruction instr => exact extent_eq_of_length hg he he₀ (hsame i instr hn)
        | _ => cases hinstr

/-- A jump that is short stays short. -/
theorem Arrival.short_of_short (hi : i ∈ p.shortJumps layout₀) : i ∈ p.shortJumps layout := by
  obtain ⟨instr, l, hn, hl, hshort⟩ := Program.mem_shortJumps.mp hi
  refine Program.mem_shortJumps.mpr ⟨instr, l, hn, hl, ?_⟩
  obtain ⟨hlt, -⟩ := List.getElem?_eq_some_iff.mp hn
  rw [h₀.length?_eq hlt, Option.some.injEq] at hshort
  rw [h.length?_eq hlt]
  have hle := Trace.length_le h₀ h.trace hlt hn rfl
  have hnear := instr.two_lt_nearLength p.mode
  rcases h.length_jump hn hl with ⟨-, hlength⟩ | ⟨-, hlength⟩
  · rw [hlength]
  · omega

/-- A pass that does not settle makes a jump short that was near. -/
theorem Arrival.exists_shortened
    (hunsettled : Program.isSettled p.nodeList (some layout₀) layout = false) :
    ∃ i instr l, p.nodeList[i]? = some (.instruction instr) ∧ instr.jumpTarget? = some l ∧
      layout₀.length? i = some (instr.nearLength p.mode) ∧ layout.length? i = some 2 := by
  obtain ⟨i, instr, hn, hne⟩ : ∃ i instr, p.nodeList[i]? = some (.instruction instr) ∧
      (extent i).length ≠ (extent₀ i).length := by
    by_contra hnone
    have hsame : ∀ i instr, p.nodeList[i]? = some (.instruction instr) →
        (extent i).length = (extent₀ i).length :=
      fun i instr hn => by_contra fun hne => hnone ⟨i, instr, hn, hne⟩
    have hshapes := h.shapes_eq h₀ fun i hi => Arrival.extents_eq_previous h₀ h hsame hi
    simp [Program.isSettled, hshapes] at hunsettled
  obtain ⟨hlt, -⟩ := List.getElem?_eq_some_iff.mp hn
  have hle := Trace.length_le h₀ h.trace hlt hn rfl
  have he := h.trace.extent_eq i _ hlt hn
  have he₀ := h₀.trace.extent_eq i _ hlt hn
  obtain ⟨t, ht⟩ := exists_template he
  by_cases hbranch : ∃ b, t = .branch b ∧ b.short?.isSome
  · obtain ⟨b, rfl, hshort⟩ := hbranch
    have hl := Instruction.jumpTarget_of_template ht hshort
    have hnear := instr.two_lt_nearLength p.mode
    refine ⟨i, instr, b.label, hn, hl, ?_⟩
    rw [h₀.length?_eq hlt, h.length?_eq hlt]
    rcases h₀.length_jump hn hl with ⟨-, hlength₀⟩ | ⟨-, hlength₀⟩ <;>
      rcases h.length_jump hn hl with ⟨-, hlength⟩ | ⟨-, hlength⟩
    · omega
    · omega
    · exact ⟨congrArg some hlength₀, congrArg some hlength⟩
    · omega
  · -- the length of everything else is the same in all passes
    rw [length_of_extent he ht, length_of_extent he₀ ht] at hne
    exact absurd (Template.length_congr hbranch _ _) hne

/-- The short jumps are more after a pass that does not settle. -/
theorem Arrival.card_shortJumps_lt
    (hunsettled : Program.isSettled p.nodeList (some layout₀) layout = false) :
    (p.shortJumps layout₀).card < (p.shortJumps layout).card := by
  obtain ⟨i, instr, l, hn, hl, hnear, hshort⟩ := Arrival.exists_shortened h₀ h hunsettled
  refine Finset.card_lt_card (Finset.ssubset_iff_of_subset ?_ |>.mpr ⟨i, ?_, ?_⟩)
  · exact fun j hj => Arrival.short_of_short h₀ h hj
  · exact Program.mem_shortJumps.mpr ⟨instr, l, hn, hl, hshort⟩
  · intro hi
    obtain ⟨_, _, _, _, htwo⟩ := Program.mem_shortJumps.mp hi
    have := instr.two_lt_nearLength p.mode
    rw [hnear, Option.some.injEq] at htwo
    omega

end

end Pass

namespace Program

/-- Passes are made in one way only. -/
theorem Relaxing.unique {previous' : Option Layout} (h : p.Relaxing base limits n previous)
    (h' : p.Relaxing base limits n previous') : previous = previous' := by
  induction h generalizing previous' with
  | start =>
    cases h'
    rfl
  | pass _ _ hrun _ ih =>
    cases h' with
    | pass hprevious' _ hrun' _ =>
      obtain rfl := ih hprevious'
      exact congrArg some (Except.ok.inj (hrun.symm.trans hrun'))

/-- After the first pass each one that does not settle adds to the short jumps. -/
theorem Relaxing.le_card_shortJumps (h : p.Relaxing base limits n (some layout)) :
    n ≤ (p.shortJumps layout).card + 1 := by
  generalize hlast : some layout = last at h
  induction h generalizing layout with
  | start => cases hlast
  | @pass n previous layout' hprevious hn hrun hunsettled ih =>
    cases hlast
    cases previous with
    | none =>
      cases hprevious
      omega
    | some layout₀ =>
      have hle := ih rfl
      obtain ⟨_, _, walk₀, extent₀, _, h₀⟩ := hprevious.exists_arrival
      obtain ⟨walk, extent, h⟩ := Pass.exists_arrival hrun
      have hlt := Pass.Arrival.card_shortJumps_lt h₀ h hunsettled
      omega

/-- There are at most two passes more than jumps. -/
theorem Relaxing.le_jumps (h : p.Relaxing base limits n previous) : n ≤ p.jumps + 1 := by
  cases previous with
  | none =>
    cases h
    exact Nat.zero_le _
  | some layout =>
    have := h.le_card_shortJumps
    have := p.card_shortJumps_le layout
    omega

/-- What holds after some pass, and after each one that goes by a layout of which it holds, holds
after all later ones. -/
theorem Completes.induction_later {motive : Layout → Prop} {previous' : Option Layout}
    {layout' : Layout} (h : p.Completes base limits k previous layout) (start : motive layout)
    (step : ∀ {m previous₀ layout₀ layout}, p.Completes base limits m previous₀ layout₀ →
      p.Completes base limits (m + 1) (some layout₀) layout → motive layout₀ → motive layout)
    (h' : p.Completes base limits m previous' layout') (hkm : k ≤ m) : motive layout' := by
  induction m generalizing previous' layout' with
  | zero => cases h'
  | succ m ih =>
    have hlater := h'
    cases h with
    | @pass n _ _ hrelaxing hn hrun =>
    cases h' with
    | pass hrelaxing' hm hrun' =>
    rcases Nat.le_or_eq_of_le_succ hkm with hlt | heq
    · -- the pass before has been made as well
      cases hrelaxing' with
      | start => exact absurd hlt (Nat.not_succ_le_zero n)
      | @pass m previous₀ layout₀ hprevious hm₀ hrun₀ _ =>
        have hearlier : p.Completes base limits (m + 1) previous₀ layout₀ :=
          .pass hprevious hm₀ hrun₀
        exact step hearlier hlater (ih hearlier hlt)
    · obtain rfl := Nat.succ.inj heq
      obtain rfl := hrelaxing.unique hrelaxing'
      obtain rfl := Except.ok.inj (hrun.symm.trans hrun')
      exact start

/-- Every pass that is completed arrives at its layout. -/
theorem Completes.exists_arrival (h : p.Completes base limits k previous layout) :
    ∃ walk extent, (p.pass base limits previous).Arrival p.nodeList layout walk extent := by
  cases h with
  | pass _ _ hrun => exact Pass.exists_arrival hrun

/-- What is short after some pass is short after all later ones. -/
theorem Completes.short_of_short {previous' : Option Layout} {layout' : Layout}
    (h : p.Completes base limits k previous layout) (hi : i ∈ p.shortJumps layout)
    (h' : p.Completes base limits m previous' layout') (hkm : k ≤ m) :
    i ∈ p.shortJumps layout' := by
  refine h.induction_later (motive := fun layout => i ∈ p.shortJumps layout) hi
    (fun hearlier hlater hshort => ?_) h' hkm
  obtain ⟨walk₀, extent₀, h₀⟩ := hearlier.exists_arrival
  obtain ⟨walk, extent, h⟩ := hlater.exists_arrival
  exact Pass.Arrival.short_of_short h₀ h hshort

/-- A pass after the first that does not settle makes a jump short that was near, and the jump
stays short in all later passes. -/
theorem Completes.exists_shortened (h : p.Completes base limits k previous layout) (hk : 2 ≤ k)
    (hunsettled : isSettled p.nodeList previous layout = false) :
    ∃ last i instr l, previous = some last ∧ p.nodeList[i]? = some (.instruction instr) ∧
      instr.jumpTarget? = some l ∧ last.length? i = some (instr.nearLength p.mode) ∧
        ∀ m previous' layout', k ≤ m → p.Completes base limits m previous' layout' →
          layout'.length? i = some 2 := by
  have hcompletes := h
  cases h with
  | @pass n _ _ hrelaxing hn hrun =>
  cases hrelaxing with
  | start => exact absurd hk (by decide)
  | @pass n previous₀ layout₀ hprevious hn₀ hrun₀ _ =>
    obtain ⟨walk₀, extent₀, h₀⟩ := Pass.exists_arrival hrun₀
    obtain ⟨walk, extent, h⟩ := Pass.exists_arrival hrun
    obtain ⟨i, instr, l, hi, hl, hnear, hshort⟩ := h₀.exists_shortened h hunsettled
    have hmem : i ∈ p.shortJumps layout := mem_shortJumps.mpr ⟨instr, l, hi, hl, hshort⟩
    refine ⟨layout₀, i, instr, l, rfl, hi, hl, hnear, fun m previous' layout' hkm h' => ?_⟩
    obtain ⟨_, _, _, _, hlength⟩ := mem_shortJumps.mp (hcompletes.short_of_short hmem h' hkm)
    exact hlength

/-- Relaxation makes at most two passes more than there are jumps, and gives up for their number
only if it may not make so many. -/
theorem relax_passes_le (p : Program) (base : UInt64) (limits : Limits) :
    (p.relax base limits).2 ≤ p.jumps + 2 ∧
      ∀ max, (p.relax base limits).1 = .error (.relaxationLimit max) →
        limits.maxPasses.toNat ≤ p.jumps + 1 := by
  have houtcome := p.relax_outcome base limits
  generalize p.relax base limits = outcome at houtcome ⊢
  cases houtcome with
  | exhausted h => exact ⟨Nat.le_succ_of_le h.le_jumps, fun _ _ => h.le_jumps⟩
  | failed h _ hrun =>
    refine ⟨Nat.succ_le_succ h.le_jumps, fun max hmax => ?_⟩
    cases hmax
    exact absurd hrun Pass.run_ne_relaxationLimit
  | settled h _ _ _ => exact ⟨Nat.succ_le_succ h.le_jumps, fun _ hmax => nomatch hmax⟩

end Program

end X86Asm
