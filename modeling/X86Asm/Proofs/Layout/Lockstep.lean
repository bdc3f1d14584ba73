import Mathlib.Data.Nat.ModEq
import X86Asm.Proofs.Layout.Capacity
import X86Asm.Proofs.Layout.Reach

/-!
# Relaxation at two bases

Relaxations of one program at two bases go in lockstep if the bases have the same remainder for
every alignment and there is room around both of them: each pass gives every node the same extent
(`Trace.extents_eq`), so both settle after the same number of passes (`Relaxing.eq_of_settled`).

The extent of a gap depends on a remainder. The extent of a branch depends on the distance to its
label, and on whether estimates are addresses: there has to be room for the slack below the base
and for everything above it.
-/

namespace X86Asm

variable {p : Program} {base base' : UInt64} {limits : Limits} {previous previous' : Option Layout}
  {layout layout' : Layout} {nodes : List Node} {pass pass' : Pass} {walk walk' : Nat → Walk}
  {extent extent' : Nat → Extent} {i j k k' n n' : Nat} {l : Label} {node : Node}

namespace Program

/-- There is room for the gaps below the base and for the whole program above it. -/
structure Room (p : Program) (base : UInt64) : Prop where
  below : p.capacity ≤ base.toNat
  above : base.toNat + p.widest + p.capacity < addressSpace

/-- Two bases have the same remainder for every alignment of the program. -/
def Congruent (p : Program) (base base' : UInt64) : Prop :=
  ∀ node ∈ p.nodeList, ∀ alignment, p.gap? node = some alignment →
    base.toNat % alignment.toNat = base'.toNat % alignment.toNat

/-- Layouts at two bases that passes arrived at with the same extents. -/
inductive Lockstep (p : Program) (limits : Limits) (base base' : UInt64) :
    Option Layout → Option Layout → Prop
  | start : Lockstep p limits base base' none none
  | pass {previous previous' : Option Layout} {layout layout' : Layout} {walk walk' : Nat → Walk}
      {extent extent' : Nat → Extent} :
      (p.pass base limits previous).Arrival p.nodeList layout walk extent →
      (p.pass base' limits previous').Arrival p.nodeList layout' walk' extent' →
      (∀ i < p.nodeList.length, extent i = extent' i) →
      Lockstep p limits base base' (some layout) (some layout')

/-- Congruence of bases goes both ways. -/
theorem Congruent.symm (h : p.Congruent base base') : p.Congruent base' base :=
  fun node hn alignment hg => (h node hn alignment hg).symm

/-- Lockstep goes both ways. -/
theorem Lockstep.symm (h : p.Lockstep limits base base' previous previous') :
    p.Lockstep limits base' base previous' previous := by
  cases h with
  | start => exact .start
  | pass h h' heq => exact .pass h' h fun i hi => (heq i hi).symm

end Program

namespace Pass

/-- After the same extents walks differ by the bases only. -/
theorem Trace.shift (h : pass.Trace nodes k walk extent) (h' : pass'.Trace nodes k' walk' extent')
    (hi : i ≤ k) (hi' : i ≤ k') (heq : ∀ j < i, extent j = extent' j) :
    (walk i).address + pass'.base = (walk' i).address + pass.base ∧
      (walk i).slack = (walk' i).slack := by
  induction i with
  | zero =>
    rw [h.address_zero, h'.address_zero, h.slack_zero, h'.slack_zero]
    exact ⟨Nat.add_comm _ _, rfl⟩
  | succ i ih =>
    obtain ⟨haddress, hslack⟩ := ih (Nat.le_of_succ_le hi) (Nat.le_of_succ_le hi')
      fun j hj => heq j (Nat.lt_succ_of_lt hj)
    rw [h.address_succ hi, h'.address_succ hi', h.slack_succ hi, h'.slack_succ hi',
      heq i (Nat.lt_succ_self i)]
    omega

/-- An estimate ahead is an address of the address space. -/
theorem Trace.ahead_lt {walk₀ : Nat → Walk} {extent₀ : Nat → Extent} {previous₀ : Option Layout}
    (hp : p.Valid) (hroom : p.Room base)
    (h₀ : (p.pass base limits previous₀).Trace p.nodeList k' walk₀ extent₀)
    (h : (p.pass base limits previous).Trace p.nodeList k walk extent) (hi : i ≤ k) (hij : i ≤ j)
    (hj : j ≤ k') :
    (walk i).address + ((walk₀ j).stretched - (walk₀ i).stretched) < addressSpace := by
  have hstart := h.stretched_le_sum hp (Nat.zero_le i) hi
  have hbetween := h₀.stretched_le_sum hp hij hj
  have htotal := p.sumTo_span_le j
  have hzero : p.sumTo (fun n => n.widest p.mode + p.gapCapacity n) 0 = 0 := rfl
  have haddress : (walk i).address ≤ (walk i).stretched := Nat.le_add_right _ _
  have hmono : (walk₀ i).stretched ≤ (walk₀ j).stretched := by
    obtain ⟨haddress, hslack⟩ := h₀.le_of_le hij hj
    exact Nat.add_le_add haddress hslack
  have habove := hroom.above
  have hbase : (p.pass base limits previous).base = base.toNat := rfl
  rw [h.stretched_zero] at hstart
  omega

/-- Nodes that are no gaps have the same extent if they have the same length. -/
theorem extent_eq_of_length {w w' : Walk} {e e' : Extent} (hg : p.gap? node = none)
    (he : pass.extent w node = .ok e) (he' : pass'.extent w' node = .ok e')
    (hlength : e.length = e'.length) : e = e' := by
  obtain ⟨hpad, hcap⟩ := padding_of_not_gap hg he
  obtain ⟨hpad', hcap'⟩ := padding_of_not_gap hg he'
  cases e
  cases e'
  simp_all

section

variable (hp : p.Valid) (hroom : p.Room base) (hroom' : p.Room base')
  (hrelaxing : p.Relaxing base limits n previous)
  (hrelaxing' : p.Relaxing base' limits n' previous')
  (hlock : p.Lockstep limits base base' previous previous')
  (h : (p.pass base limits previous).Trace p.nodeList k walk extent)
  (h' : (p.pass base' limits previous').Trace p.nodeList k walk' extent')

include hp hroom' hlock h h'

/-- What one pass takes to be within reach, so does the other. -/
theorem Trace.reaches_of_reaches (hrelaxing : p.Relaxing base limits n previous) (hi : i ≤ k)
    (heq : ∀ j < i, extent j = extent' j) (hr : (p.pass base limits previous).Reaches (walk i) l) :
    (p.pass base' limits previous').Reaches (walk' i) l := by
  obtain ⟨haddress, hslack⟩ := h.shift h' hi hi heq
  obtain ⟨j, hj, hji | ⟨hij, hsome⟩⟩ := exists_label_of_reaches hrelaxing hp h hi hr
  · -- behind: the estimate is not negative, as there is room for the slack below the base
    rw [h.reaches_behind_iff hp.uniqueLabels hi hj hji] at hr
    rw [h'.reaches_behind_iff hp.uniqueLabels hi hj hji]
    have hle := Nat.le_trans (Nat.le_of_lt hji) hi
    obtain ⟨haddressj, hslackj⟩ := h.shift h' hle hle
      fun m hm => heq m (Nat.lt_trans hm hji)
    have hbelow : (walk' i).slack ≤ (walk' j).address :=
      Nat.le_trans (h'.slack_le hp hi) (Nat.le_trans hroom'.below (h'.base_le hle))
    unfold Walk.stretched at hr ⊢
    omega
  · -- ahead: the layouts of the passes before are in lockstep, and there is room above
    cases hlock with
    | start => cases hsome
    | @pass _ _ _ _ walk₀ walk₀' extent₀ extent₀' h₀ h₀' heq₀ =>
      obtain ⟨hlt, -⟩ := List.getElem?_eq_some_iff.mp hj
      have hle := Nat.le_of_lt hlt
      obtain ⟨haddressi, hslacki⟩ := h₀.trace.shift h₀'.trace (Nat.le_trans hij hle)
        (Nat.le_trans hij hle) fun m hm => heq₀ m (Nat.lt_trans (Nat.lt_of_lt_of_le hm hij) hlt)
      obtain ⟨haddressj, hslackj⟩ := h₀.trace.shift h₀'.trace hle hle
        fun m hm => heq₀ m (Nat.lt_trans hm hlt)
      rw [h.reaches_ahead_iff hp h₀ hi hj hij] at hr
      rw [h'.reaches_ahead_iff hp h₀' hi hj hij]
      refine ⟨?_, Trace.ahead_lt hp hroom' h₀'.trace h' hi hij hle⟩
      unfold Walk.stretched at hr ⊢
      omega

include hroom hrelaxing hrelaxing'

/-- After the same extents two passes take the same labels to be within reach. -/
theorem Trace.reaches_iff (hi : i ≤ k) (heq : ∀ j < i, extent j = extent' j) (l : Label) :
    (p.pass base limits previous).Reaches (walk i) l ↔
      (p.pass base' limits previous').Reaches (walk' i) l :=
  ⟨Trace.reaches_of_reaches hp hroom' hlock h h' hrelaxing hi heq,
    Trace.reaches_of_reaches hp hroom hlock.symm h' h hrelaxing' hi fun j hj => (heq j hj).symm⟩

/-- A node has the same extent at both bases. -/
theorem Trace.extent_eq_extent (hcongr : p.Congruent base base') (hi : i < k)
    (heq : ∀ j < i, extent j = extent' j) : extent i = extent' i := by
  obtain ⟨haddress, -⟩ := h.shift h' (Nat.le_of_lt hi) (Nat.le_of_lt hi) heq
  obtain ⟨node, hn⟩ := h.node_eq hi
  have he := h.extent_eq i node hi hn
  have he' := h'.extent_eq i node hi hn
  cases hg : p.gap? node with
  | some alignment =>
    rw [Program.extent_of_gap hg] at he he'
    refine gapExtent_congr (hp.gap_pos hn hg) he he' ?_
    -- the walks are as far apart as the bases, which agree up to the alignment
    have hbase : base'.toNat ≡ base.toNat [MOD alignment.toNat] :=
      (hcongr node (List.mem_of_getElem? hn) alignment hg).symm
    have hsum : (walk i).address + base'.toNat = (walk' i).address + base.toNat := haddress
    exact Nat.ModEq.add_right_cancel hbase (by rw [hsum])
  | none =>
    cases hinstr : node.isInstruction with
    | false =>
      rw [extent_eq_of_rigid hinstr hg _ (p.pass base' limits previous') _ (walk' i), he'] at he
      exact (Except.ok.inj he).symm
    | true =>
      cases node with
      | instruction instr =>
        refine extent_eq_of_length hg he he' ?_
        obtain ⟨t, ht⟩ := exists_template he
        have hreaches := Trace.reaches_iff hp hroom hroom' hrelaxing hrelaxing' hlock h h'
          (Nat.le_of_lt hi) heq
        rw [length_of_extent he ht, length_of_extent he' ht]
        -- only a branch with a short form can have another length elsewhere
        by_cases hshort : ∃ b, t = .branch b ∧ b.short?.isSome
        · obtain ⟨b, rfl, hshort⟩ := hshort
          have hspace := h.inSpace (p.pass_base_lt base limits previous) (Nat.le_of_lt hi)
          have hspace' := h'.inSpace (p.pass_base_lt base' limits previous') (Nat.le_of_lt hi)
          have htakes := (takesShort_iff_reaches hspace hshort).trans
            ((hreaches b.label).trans (takesShort_iff_reaches hspace' hshort).symm)
          exact if_congr htakes rfl rfl
        · exact Template.length_congr hshort _ _
      | _ => cases hinstr

/-- All nodes that both passes get past have the same extents. -/
theorem Trace.extents_eq (hcongr : p.Congruent base base') (hi : i < k) : extent i = extent' i := by
  induction i using Nat.strong_induction_on with
  | _ i ih =>
    exact Trace.extent_eq_extent hp hroom hroom' hrelaxing hrelaxing' hlock h h' hcongr hi
      fun j hj => ih j hj (Nat.lt_trans hj hi)

end

/-- The same extents give the same shapes. -/
theorem Arrival.shapes_eq (h : pass.Arrival nodes layout walk extent)
    (h' : pass'.Arrival nodes layout' walk' extent')
    (heq : ∀ i < nodes.length, extent i = extent' i) : layout.shapes = layout'.shapes := by
  refine Array.ext_getElem? fun i => ?_
  simp only [Layout.shapes, Array.getElem?_map]
  by_cases hi : i < nodes.length
  · rw [h.placement hi, h'.placement hi, heq i hi]
    rfl
  · rw [Array.getElem?_eq_none (h.size_placements ▸ Nat.le_of_not_lt hi),
      Array.getElem?_eq_none (h'.size_placements ▸ Nat.le_of_not_lt hi)]

end Pass

namespace Program

/-- Layouts with the same extents settle together. -/
theorem Lockstep.isSettled_eq (hlock : p.Lockstep limits base base' previous previous')
    (hlock' : p.Lockstep limits base base' (some layout) (some layout')) :
    isSettled p.nodeList previous layout = isSettled p.nodeList previous' layout' := by
  have hshapes {layout layout' : Layout}
      (hlock : p.Lockstep limits base base' (some layout) (some layout')) :
      layout.shapes = layout'.shapes := by
    cases hlock with
    | pass h h' heq => exact h.shapes_eq h' heq
  cases hlock with
  | start => rfl
  | pass h h' heq =>
    unfold isSettled
    simp only [h.shapes_eq h' heq, hshapes hlock']

/-- A relaxation has made every number of passes below the one that it has made. -/
theorem Relaxing.earlier {m : Nat} (h : p.Relaxing base limits n previous) (hm : m < n) :
    ∃ previous layout, p.Relaxing base limits m previous ∧
      (p.pass base limits previous).run p.nodeList = .ok layout ∧
        isSettled p.nodeList previous layout = false := by
  induction h with
  | start => exact absurd hm (Nat.not_lt_zero m)
  | pass hprevious hn hrun hsettled ih =>
    rcases Nat.lt_succ_iff_lt_or_eq.mp hm with hm | rfl
    · exact ih hm
    · exact ⟨_, _, hprevious, hrun, hsettled⟩

section

variable (hp : p.Valid) (hroom : p.Room base) (hroom' : p.Room base')
  (hcongr : p.Congruent base base')

include hp hroom hroom' hcongr

/-- Passes that go by layouts in lockstep arrive at layouts in lockstep. -/
theorem Lockstep.next (hlock : p.Lockstep limits base base' previous previous')
    (hrelaxing : p.Relaxing base limits n previous)
    (hrelaxing' : p.Relaxing base' limits n' previous')
    (hrun : (p.pass base limits previous).run p.nodeList = .ok layout)
    (hrun' : (p.pass base' limits previous').run p.nodeList = .ok layout') :
    p.Lockstep limits base base' (some layout) (some layout') := by
  obtain ⟨walk, extent, h⟩ := Pass.exists_arrival hrun
  obtain ⟨walk', extent', h'⟩ := Pass.exists_arrival hrun'
  exact .pass h h' fun i hi => Pass.Trace.extents_eq hp hroom hroom' hrelaxing hrelaxing' hlock
    h.trace h'.trace hcongr hi

/-- After the same number of passes relaxations are in lockstep. -/
theorem Relaxing.lockstep (h : p.Relaxing base limits n previous)
    (h' : p.Relaxing base' limits n previous') :
    p.Lockstep limits base base' previous previous' := by
  induction h generalizing previous' with
  | start =>
    cases h'
    exact .start
  | pass hprevious _ hrun _ ih =>
    cases h' with
    | pass hprevious' _ hrun' _ =>
      exact (ih hprevious').next hp hroom hroom' hcongr hprevious hprevious' hrun hrun'

/-- A relaxation does not settle later than the other. -/
theorem Relaxing.le_of_settled (h : p.Relaxing base limits n previous)
    (h' : p.Relaxing base' limits n' previous')
    (hrun : (p.pass base limits previous).run p.nodeList = .ok layout)
    (hsettled : isSettled p.nodeList previous layout = true) : n' ≤ n := by
  by_contra hlt
  -- the other relaxation has made this pass too, and gone on
  obtain ⟨earlier, layout', hearlier, hrun', hgoes⟩ := h'.earlier (Nat.lt_of_not_le hlt)
  have hlock := h.lockstep hp hroom hroom' hcongr hearlier
  have hnext := hlock.next hp hroom hroom' hcongr h hearlier hrun hrun'
  rw [hlock.isSettled_eq hnext, hgoes] at hsettled
  cases hsettled

/-- Two relaxations in lockstep settle after the same number of passes. -/
theorem Relaxing.eq_of_settled (h : p.Relaxing base limits n previous)
    (h' : p.Relaxing base' limits n' previous')
    (hrun : (p.pass base limits previous).run p.nodeList = .ok layout)
    (hrun' : (p.pass base' limits previous').run p.nodeList = .ok layout')
    (hsettled : isSettled p.nodeList previous layout = true)
    (hsettled' : isSettled p.nodeList previous' layout' = true) : n = n' :=
  Nat.le_antisymm (h'.le_of_settled hp hroom' hroom hcongr.symm h hrun' hsettled')
    (h.le_of_settled hp hroom hroom' hcongr h' hrun hsettled)

end

end Program

end X86Asm
