import Mathlib.Algebra.BigOperators.Intervals
import X86Asm.Proofs.Layout.Settling

/-!
# The form of a jump in the final layout

A jump gets its form from an estimate, in which its own length and the nodes up to its label have
the lengths of the pass before. In the final layout these are the lengths that they have
(`Arrival.extents_eq_of_settled`), except that the jump itself may have been near when it was made
short. It is then within reach even if it were near (`Relaxing.near_close`), as what is between it
and its label only got shorter. So its form follows from the final lengths of the nodes in between.
-/

namespace X86Asm

variable {p : Program} {base : UInt64} {limits : Limits} {previous : Option Layout}
  {layout layout₀ : Layout} {walk₀ walk : Nat → Walk} {extent₀ extent : Nat → Extent}
  {instr : Instruction} {l : Label} {pass : Pass} {nodes : List Node} {i j k n : Nat}

namespace Pass

/-- The distance of two places is the sum of what is in between. -/
theorem Trace.stretched_eq_sum (h : pass.Trace nodes k walk extent) (hij : i ≤ j) (hj : j ≤ k) :
    (walk j).stretched = (walk i).stretched + ∑ m ∈ Finset.Ico i j, (extent m).span := by
  induction j, hij using Nat.le_induction with
  | base => simp
  | succ j hij ih =>
    rw [h.stretched_succ hj, ih (Nat.le_of_succ_le hj), Finset.sum_Ico_succ_top hij]
    omega

/-- An instruction moves on by its length, since it has no slack. -/
theorem Trace.stretched_succ_jump (h : (p.pass base limits previous).Trace p.nodeList k walk extent)
    (hi : i < k) (hn : p.nodeList[i]? = some (.instruction instr)) :
    (walk (i + 1)).stretched = (walk i).stretched + (extent i).length := by
  rw [h.stretched_succ hi, span_of_not_gap (p := p) rfl (h.extent_eq i _ hi hn)]

/-- A label takes no bytes. -/
theorem Arrival.stretched_succ_label
    (h : (p.pass base limits previous).Arrival p.nodeList layout walk extent)
    (hj : p.nodeList[j]? = some (.label l)) :
    (walk (j + 1)).stretched = (walk j).stretched := by
  obtain ⟨hlt, -⟩ := List.getElem?_eq_some_iff.mp hj
  have he : extent j = { length := 0 } :=
    (Except.ok.inj (h.trace.extent_eq j _ hlt hj)).symm
  rw [h.trace.stretched_succ hlt, he]
  rfl

/-- A pass that settles gives every node the extent that it had. -/
theorem Arrival.extents_eq_of_settled
    (h₀ : (p.pass base limits previous).Arrival p.nodeList layout₀ walk₀ extent₀)
    (h : (p.pass base limits (some layout₀)).Arrival p.nodeList layout walk extent)
    (hsettled : Program.isSettled p.nodeList (some layout₀) layout = true)
    (hi : i < p.nodeList.length) : extent i = extent₀ i := by
  refine Arrival.extents_eq_previous h₀ h (fun i instr hn => ?_) hi
  obtain ⟨hlt, -⟩ := List.getElem?_eq_some_iff.mp hn
  have hshapes : layout₀.shapes = layout.shapes := of_decide_eq_true hsettled
  have hshape := congrArg (fun shapes => shapes[i]?) hshapes
  simp only [Layout.shapes, Array.getElem?_map, h.placement hlt, h₀.placement hlt] at hshape
  exact (congrArg Prod.fst (Option.some.inj hshape)).symm

end Pass

/-- A jump that is short with its label ahead would be close to it even if it were near. -/
theorem Program.Relaxing.near_close (hrelaxing : p.Relaxing base limits n previous) (hp : p.Valid)
    (h : (p.pass base limits previous).Arrival p.nodeList layout walk extent)
    (hn : p.nodeList[i]? = some (.instruction instr)) (hl : instr.jumpTarget? = some l)
    (hj : p.nodeList[j]? = some (.label l)) (hij : i < j) (hshort : (extent i).length = 2) :
    (walk j).stretched + instr.nearLength p.mode ≤ (walk (i + 1)).stretched + 129 := by
  obtain ⟨hlt, -⟩ := List.getElem?_eq_some_iff.mp hn
  obtain ⟨hjlt, -⟩ := List.getElem?_eq_some_iff.mp hj
  have hlong := instr.two_lt_nearLength p.mode
  induction hrelaxing generalizing layout walk extent with
  | start =>
    rcases h.length_jump hn hl with ⟨hr, -⟩ | ⟨-, hlength⟩
    · -- the first pass knows nothing about a label ahead
      obtain ⟨j', hj', hji | ⟨-, hsome⟩⟩ :=
        Pass.exists_label_of_reaches .start hp h.trace (Nat.le_of_lt hlt) hr
      · have := hp.label_unique hj hj'
        omega
      · cases hsome
    · omega
  | @pass n previous layout₀ hprevious _ hrun _ ih =>
    obtain ⟨walk₀, extent₀, h₀⟩ := Pass.exists_arrival hrun
    have hclose₀ : (walk₀ j).stretched + instr.nearLength p.mode ≤
        (walk₀ (i + 1)).stretched + 129 := by
      rcases h₀.length_jump hn hl with ⟨-, hshort₀⟩ | ⟨-, hnear₀⟩
      · exact ih h₀ hshort₀
      · rcases h.length_jump hn hl with ⟨hr, -⟩ | ⟨-, hnear⟩
        · obtain ⟨hreach, -⟩ :=
            (h.trace.reaches_ahead_iff hp h₀ (Nat.le_of_lt hlt) hj (Nat.le_of_lt hij)).mp hr
          rw [h₀.trace.stretched_succ_jump hlt hn]
          omega
        · omega
    have hle := h.trace.stretched_le hp h₀ (i := i + 1) hij (Nat.le_of_lt hjlt)
    omega

namespace Pass

section

variable (hp : p.Valid) (hroom : p.Room base)
  (h : (p.pass base limits previous).Arrival p.nodeList layout walk extent)
  (hn : p.nodeList[i]? = some (.instruction instr)) (hl : instr.jumpTarget? = some l)
  (hj : p.nodeList[j]? = some (.label l))

include hp hroom h hn hl hj

/-- A jump back is short exactly if the distance fits. -/
theorem Arrival.short_behind_iff (hji : j < i) :
    (extent i).length = 2 ↔ (walk i).stretched ≤ (walk j).stretched + 125 := by
  obtain ⟨hlt, -⟩ := List.getElem?_eq_some_iff.mp hn
  have hle := Nat.le_of_lt hlt
  -- there is room for the slack below the base
  have hbelow : (walk i).slack - (walk j).slack ≤ (walk j).address := by
    have hslack := h.trace.slack_le hp hle
    have hbase : base.toNat ≤ (walk j).address :=
      h.trace.base_le (Nat.le_trans (Nat.le_of_lt hji) hle)
    have := hroom.below
    omega
  have hreaches := h.trace.reaches_behind_iff hp.uniqueLabels hle hj hji
  have hlong := instr.two_lt_nearLength p.mode
  rcases h.length_jump hn hl with ⟨hr, hlength⟩ | ⟨hr, hlength⟩
  · exact ⟨fun _ => (hreaches.mp hr).2, fun _ => hlength⟩
  · exact ⟨fun _ => by omega, fun hclose => absurd (hreaches.mpr ⟨hbelow, hclose⟩) hr⟩

/-- In a layout that is settled a jump ahead is short exactly if the distance would fit if it were
near. -/
theorem Arrival.short_ahead_iff (hrelaxing : p.Relaxing base limits n previous)
    (hsettled : Program.isSettled p.nodeList previous layout = true) (hij : i < j) :
    (extent i).length = 2 ↔
      (walk j).stretched + instr.nearLength p.mode ≤ (walk (i + 1)).stretched + 129 := by
  obtain ⟨hlt, -⟩ := List.getElem?_eq_some_iff.mp hn
  obtain ⟨hjlt, -⟩ := List.getElem?_eq_some_iff.mp hj
  refine ⟨hrelaxing.near_close hp h hn hl hj hij, fun hclose => ?_⟩
  have hlong := instr.two_lt_nearLength p.mode
  have hstep := h.trace.stretched_succ_jump hlt hn
  cases previous with
  | none =>
    -- the bytes of a jump depend on its label, so there is a second pass
    obtain ⟨b, ht, -, hlabel, -⟩ := Instruction.template_of_jumpTarget hl p.mode
    have hdependent : p.nodeList.any Node.isAddressDependent = true := by
      refine List.any_eq_true.mpr ⟨_, List.mem_of_getElem? hn, ?_⟩
      rw [Node.isAddressDependent, Node.references, Instruction.label?_of_template ht]
      rfl
    rw [Program.isSettled, hdependent] at hsettled
    cases hsettled
  | some layout₀ =>
    obtain ⟨_, _, walk₀, extent₀, -, h₀⟩ := hrelaxing.exists_arrival
    have hsame (m : Nat) (hm : m ≤ p.nodeList.length) :
        (walk m).stretched = (walk₀ m).stretched := by
      obtain ⟨haddress, hslack⟩ := h.trace.shift h₀.trace hm hm fun k hk =>
        Arrival.extents_eq_of_settled h₀ h hsettled (Nat.lt_of_lt_of_le hk hm)
      rw [Walk.stretched, Walk.stretched, hslack, Nat.add_right_cancel haddress]
    rcases h.length_jump hn hl with ⟨-, hlength⟩ | ⟨hr, hlength⟩
    · exact hlength
    · refine absurd ?_ hr
      have hle := Nat.le_of_lt hij
      rw [h.trace.reaches_ahead_iff hp h₀ (Nat.le_of_lt hlt) hj hle]
      refine ⟨?_, Trace.ahead_lt hp hroom h₀.trace h.trace (Nat.le_of_lt hlt) hle
        (Nat.le_of_lt hjlt)⟩
      rw [← hsame i (Nat.le_of_lt hlt), ← hsame j (Nat.le_of_lt hjlt)]
      omega

end

end Pass

end X86Asm
