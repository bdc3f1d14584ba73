import Mathlib.Algebra.Order.BigOperators.Group.Finset
import X86Asm.Proofs.Layout.BranchForm

/-!
# Consistent choices of short jumps

Which jumps are short is a choice, and a choice gives all distances, if gaps are taken to be as wide
as they can be. It is consistent if by these distances the jumps that fit the short form are just
the chosen ones (`Program.Consistent`).

The choice of a layout that is settled is consistent (`Arrival.consistent`). There can be other
consistent choices, but all of them make short what relaxation makes short
(`Relaxing.within_of_consistent`): relaxation starts with long jumps, and the distances of every
pass are at least those of the consistent choice.
-/

namespace X86Asm

variable {p : Program} {base : UInt64} {limits : Limits} {previous : Option Layout}
  {layout layout₀ : Layout} {walk walk₀ : Nat → Walk} {extent extent₀ : Nat → Extent} {node : Node}
  {instr : Instruction} {l : Label} {short short' : Nat → Bool} {i j k n : Nat}

/-- Whether the node with an index takes the two bytes of a short jump. -/
def Layout.isShort (layout : Layout) (i : Nat) : Bool := layout.length? i = some 2

namespace Program

/-- The node with the index `i` is a jump to the label that the node with the index `j` places. -/
structure JumpsTo (p : Program) (i j : Nat) (instr : Instruction) (l : Label) : Prop where
  node : p.nodeList[i]? = some (.instruction instr)
  target : instr.jumpTarget? = some l
  label : p.nodeList[j]? = some (.label l)

/-- How many bytes a node takes if it is a short jump or not, and as wide as it can be if it is a
gap. -/
def spanIf (p : Program) (short : Bool) (node : Node) : Nat :=
  if short && node.isJump then 2 else node.widest p.mode + p.gapCapacity node

/-- How many bytes the nodes from one index up to another take by a choice of short jumps. -/
def distance (p : Program) (short : Nat → Bool) (i j : Nat) : Nat :=
  ∑ k ∈ Finset.Ico i j, p.nodeList[k]?.elim 0 (p.spanIf (short k))

/-- The label of a jump is within reach of the short form by the distances of a choice: what is in
between leaves room for the short jump itself if the label is behind it, and for the near jump if
the label is ahead. -/
def Fits (p : Program) (short : Nat → Bool) (i j : Nat) (instr : Instruction) : Prop :=
  if j < i then p.distance short (j + 1) i + 2 ≤ 127
  else p.distance short (i + 1) j + instr.nearLength p.mode - 2 ≤ 127

/-- The jumps that fit by the distances of a choice are the chosen ones. -/
def Consistent (p : Program) (short : Nat → Bool) : Prop :=
  ∀ ⦃i j instr l⦄, p.JumpsTo i j instr l → (short i ↔ p.Fits short i j instr)

/-! ## Spans -/

/-- A jump and its label are nodes of the program. -/
theorem JumpsTo.lt (h : p.JumpsTo i j instr l) : i < p.nodeList.length ∧ j < p.nodeList.length :=
  ⟨(List.getElem?_eq_some_iff.mp h.node).1, (List.getElem?_eq_some_iff.mp h.label).1⟩

/-- No node is both a jump and its label. -/
theorem JumpsTo.ne (h : p.JumpsTo i j instr l) : i ≠ j := by
  rintro rfl
  cases h.node.symm.trans h.label

/-- A jump to a label behind it fits if it is itself within reach. -/
theorem fits_behind (hji : j < i) :
    p.Fits short i j instr ↔ p.distance short (j + 1) i + 2 ≤ 127 := by
  rw [Fits, if_pos hji]

/-- A jump to a label ahead fits if what is in between leaves room for its near form. -/
theorem fits_ahead (hij : i < j) :
    p.Fits short i j instr ↔ p.distance short (i + 1) j + instr.nearLength p.mode - 2 ≤ 127 := by
  rw [Fits, if_neg (Nat.lt_asymm hij)]

/-- What is not a jump is as wide by any choice. -/
theorem spanIf_of_not_jump (hjump : node.isJump = false) (short : Bool) :
    p.spanIf short node = node.widest p.mode + p.gapCapacity node := by
  simp [spanIf, hjump]

/-- A jump takes two bytes if it is short, and those of its near form if not. -/
theorem spanIf_jump (hl : instr.jumpTarget? = some l) (short : Bool) :
    p.spanIf short (.instruction instr) = if short then 2 else instr.nearLength p.mode := by
  have hjump : (Node.instruction instr).isJump = true := Option.isSome_iff_exists.mpr ⟨l, hl⟩
  obtain ⟨b, ht, -, -, hnear⟩ := Instruction.template_of_jumpTarget hl p.mode
  have hwidest : (Node.instruction instr).widest p.mode = instr.nearLength p.mode := by
    rw [Node.widest, ht]
    exact hnear
  rw [spanIf, hjump, hwidest, Bool.and_true]
  rfl

/-- A jump does not take more bytes if it is short. -/
theorem spanIf_le {short short' : Bool} (h : node.isJump = true → short → short') :
    p.spanIf short' node ≤ p.spanIf short node := by
  cases hjump : node.isJump with
  | false => rw [spanIf_of_not_jump hjump, spanIf_of_not_jump hjump]
  | true =>
    obtain ⟨instr, l, rfl, hl⟩ := Node.isJump_eq_true hjump
    have hnear := instr.two_lt_nearLength p.mode
    rw [spanIf_jump hl, spanIf_jump hl]
    split
    · split <;> omega
    · rename_i hlong
      rw [if_neg fun hs => hlong (h hjump hs)]

/-- Distances do not grow if more jumps are short. -/
theorem distance_le
    (h : ∀ k instr l, i ≤ k → k < j → p.nodeList[k]? = some (.instruction instr) →
      instr.jumpTarget? = some l → short k → short' k) :
    p.distance short' i j ≤ p.distance short i j := by
  refine Finset.sum_le_sum fun k hk => ?_
  obtain ⟨hik, hkj⟩ := Finset.mem_Ico.mp hk
  cases hn : p.nodeList[k]? with
  | none => exact Nat.le_refl _
  | some node =>
    refine spanIf_le fun hjump => ?_
    obtain ⟨instr, l, rfl, hl⟩ := Node.isJump_eq_true hjump
    exact h k instr l hik hkj hn hl

/-- Distances depend on the choice for the nodes of the program only. -/
theorem distance_congr (h : ∀ k < p.nodeList.length, short k = short' k) (i j : Nat) :
    p.distance short i j = p.distance short' i j := by
  refine Finset.sum_congr rfl fun k _ => ?_
  cases hn : p.nodeList[k]? with
  | none => rfl
  | some node => rw [h k (List.getElem?_eq_some_iff.mp hn).1]

/-- A choice is about the nodes of the program only. -/
theorem Consistent.congr (hshort : p.Consistent short)
    (h : ∀ k < p.nodeList.length, short k = short' k) : p.Consistent short' := by
  intro i j instr l hjump
  have hfits := hshort hjump
  unfold Fits at hfits ⊢
  rwa [h i hjump.lt.1, distance_congr h, distance_congr h] at hfits

end Program

/-- What has no short form has one length, which is that of the widest form. -/
theorem Template.length_eq_widest {t : Template} (h : ¬ ∃ b, t = .branch b ∧ b.short?.isSome)
    (ctx : Context) : t.length ctx = t.widest := by
  rw [Template.length_congr h ctx { ctx with near := true }]
  cases t with
  | fixed bytes => rfl
  | labelled lead field => rfl
  | branch b => exact Template.length_branch_near rfl

namespace Pass

/-- What is no gap and no jump takes its widest form. -/
theorem length_eq_widest {w : Walk} {e : Extent} (hg : p.gap? node = none)
    (hjump : node.isJump = false) (he : (p.pass base limits previous).extent w node = .ok e) :
    e.length = node.widest p.mode := by
  cases node with
  | instruction instr =>
    obtain ⟨t, ht⟩ : ∃ t, instr.template p.mode = .ok t := exists_template he
    rw [length_of_extent he ht, Node.widest, ht]
    refine Template.length_eq_widest (fun hbranch => ?_) _
    obtain ⟨b, rfl, hshort⟩ := hbranch
    rw [Node.isJump, Instruction.jumpTarget_of_template ht hshort] at hjump
    cases hjump
  | sectionStart s => cases hg
  | align alignment filler => cases hg
  | _ =>
    cases he
    rfl

namespace Arrival

variable (h : (p.pass base limits previous).Arrival p.nodeList layout walk extent)

include h

/-- A layout has a node short if the pass gave it two bytes. -/
theorem isShort_iff (hi : i < p.nodeList.length) :
    layout.isShort i = true ↔ (extent i).length = 2 := by
  rw [Layout.isShort, h.length?_eq hi, decide_eq_true_eq, Option.some.injEq]

variable (hp : p.Valid)

include hp

/-- Every node takes what the choice of the layout makes it take. -/
theorem span_eq_spanIf (hn : p.nodeList[k]? = some node) :
    (extent k).span = p.spanIf (layout.isShort k) node := by
  obtain ⟨hlt, -⟩ := List.getElem?_eq_some_iff.mp hn
  have he := h.trace.extent_eq k node hlt hn
  cases hjump : node.isJump with
  | true =>
    obtain ⟨instr, l, rfl, hl⟩ := Node.isJump_eq_true hjump
    have hshort := h.isShort_iff hlt
    have hnear := instr.two_lt_nearLength p.mode
    rw [span_of_not_gap (p := p) rfl he, Program.spanIf_jump hl]
    -- a jump is counted as short exactly if it takes two bytes
    rcases h.length_jump hn hl with ⟨-, hlength⟩ | ⟨-, hlength⟩
    · rw [if_pos (hshort.mpr hlength), hlength]
    · rw [if_neg (by rw [hshort]; omega), hlength]
  | false =>
    rw [Program.spanIf_of_not_jump hjump]
    cases hg : p.gap? node with
    | none =>
      have hcapacity : p.gapCapacity node = 0 := by rw [Program.gapCapacity, hg, Option.elim_none]
      rw [span_of_not_gap hg he, length_eq_widest hg hjump he, hcapacity, Nat.add_zero]
    | some alignment =>
      -- a gap has no bytes of its own
      have hwidest : node.widest p.mode = 0 := by
        cases node <;> first | rfl | cases hg
      rw [Program.extent_of_gap hg] at he
      rw [gapExtent_span (hp.gap_pos hn hg) he, hwidest, Nat.zero_add, Program.gapCapacity, hg,
        Option.elim_some]

/-- The places of a layout are as far apart as its choice makes them. -/
theorem stretched_eq_distance (hij : i ≤ j) (hj : j ≤ p.nodeList.length) :
    (walk j).stretched = (walk i).stretched + p.distance layout.isShort i j := by
  rw [h.trace.stretched_eq_sum hij hj]
  refine congrArg _ (Finset.sum_congr rfl fun k hk => ?_)
  obtain ⟨node, hn⟩ := h.trace.node_eq (Nat.lt_of_lt_of_le (Finset.mem_Ico.mp hk).2 hj)
  rw [h.span_eq_spanIf hp hn, hn]
  rfl

/-- The distance of a jump back is that from behind the label. -/
theorem stretched_eq_distance_behind (hjump : p.JumpsTo i j instr l) (hji : j < i) :
    (walk i).stretched = (walk j).stretched + p.distance layout.isShort (j + 1) i := by
  rw [← h.stretched_succ_label hjump.label]
  exact h.stretched_eq_distance hp hji (Nat.le_of_lt hjump.lt.1)

/-- The choice of a layout that is settled is consistent. -/
theorem consistent (hroom : p.Room base) (hrelaxing : p.Relaxing base limits n previous)
    (hsettled : Program.isSettled p.nodeList previous layout = true) :
    p.Consistent layout.isShort := by
  intro i j instr l hjump
  rw [h.isShort_iff hjump.lt.1]
  rcases Nat.lt_or_gt_of_ne hjump.ne with hij | hji
  · have hdistance := h.stretched_eq_distance hp (i := i + 1) hij (Nat.le_of_lt hjump.lt.2)
    rw [h.short_ahead_iff hp hroom hjump.node hjump.target hjump.label hrelaxing hsettled hij,
      Program.fits_ahead hij]
    omega
  · have hdistance := h.stretched_eq_distance_behind hp hjump hji
    rw [h.short_behind_iff hp hroom hjump.node hjump.target hjump.label hji,
      Program.fits_behind hji]
    omega

end Arrival

end Pass

/-! ## Relaxation has the fewest short jumps -/

/-- A jump that is short in one choice is short in the other. -/
def Program.Within (p : Program) (short short' : Nat → Bool) : Prop :=
  ∀ k instr l, p.nodeList[k]? = some (.instruction instr) → instr.jumpTarget? = some l →
    short k → short' k

/-- Two choices make the same jumps short. -/
def Program.Agree (p : Program) (short short' : Nat → Bool) : Prop :=
  p.Within short short' ∧ p.Within short' short

namespace Pass

/-- A jump back that a pass makes short fits by every choice that has the short jumps in front of
it. -/
theorem Arrival.fits_behind (hp : p.Valid)
    (h : (p.pass base limits previous).Arrival p.nodeList layout walk extent)
    (hjump : p.JumpsTo i j instr l) (hji : j < i)
    (hr : (p.pass base limits previous).Reaches (walk i) l)
    (hfront : ∀ k < i, ∀ instr l, p.nodeList[k]? = some (.instruction instr) →
      instr.jumpTarget? = some l → layout.isShort k → short k) : p.Fits short i j instr := by
  obtain ⟨-, hreach⟩ :=
    (h.trace.reaches_behind_iff hp.uniqueLabels (Nat.le_of_lt hjump.lt.1) hjump.label hji).mp hr
  have hdistance := h.stretched_eq_distance_behind hp hjump hji
  have hle : p.distance short (j + 1) i ≤ p.distance layout.isShort (j + 1) i :=
    Program.distance_le fun k instr l _ hki => hfront k hki instr l
  rw [Program.fits_behind hji]
  omega

/-- A jump ahead that was near and that a pass makes short fits by every choice that has the short
jumps of the layout before. -/
theorem Arrival.fits_ahead (hp : p.Valid)
    (h₀ : (p.pass base limits previous).Arrival p.nodeList layout₀ walk₀ extent₀)
    (h : (p.pass base limits (some layout₀)).Arrival p.nodeList layout walk extent)
    (hjump : p.JumpsTo i j instr l) (hij : i < j)
    (hr : (p.pass base limits (some layout₀)).Reaches (walk i) l)
    (hnear : (extent₀ i).length = instr.nearLength p.mode)
    (hwithin : p.Within layout₀.isShort short) : p.Fits short i j instr := by
  obtain ⟨hlt, hjlt⟩ := hjump.lt
  obtain ⟨hreach, -⟩ :=
    (h.trace.reaches_ahead_iff hp h₀ (Nat.le_of_lt hlt) hjump.label (Nat.le_of_lt hij)).mp hr
  have hstep := h₀.trace.stretched_succ_jump hlt hjump.node
  have hdistance := h₀.stretched_eq_distance hp (i := i + 1) hij (Nat.le_of_lt hjlt)
  have hle : p.distance short (i + 1) j ≤ p.distance layout₀.isShort (i + 1) j :=
    Program.distance_le fun k instr l _ _ => hwithin k instr l
  have htwo := instr.two_lt_nearLength p.mode
  rw [Program.fits_ahead hij]
  omega

/-- A pass that goes by a layout whose short jumps are those of a consistent choice makes no other
jump short. -/
theorem Arrival.within (hp : p.Valid) (hrelaxing : p.Relaxing base limits n previous)
    (h : (p.pass base limits previous).Arrival p.nodeList layout walk extent)
    (hshort : p.Consistent short)
    (hprevious : ∀ layout₀, previous = some layout₀ → p.Within layout₀.isShort short) :
    p.Within layout.isShort short := by
  intro i
  -- the jumps in front of a jump are those whose form is known when it gets its own
  induction i using Nat.strong_induction_on with
  | _ i ih =>
    intro instr l hn hl hi
    obtain ⟨hlt, -⟩ := List.getElem?_eq_some_iff.mp hn
    rw [h.isShort_iff hlt] at hi
    have hr : (p.pass base limits previous).Reaches (walk i) l := by
      have htwo := instr.two_lt_nearLength p.mode
      rcases h.length_jump hn hl with ⟨hr, -⟩ | ⟨-, hlength⟩
      · exact hr
      · omega
    obtain ⟨j, hj, hplace⟩ :=
      exists_label_of_reaches hrelaxing hp h.trace (Nat.le_of_lt hlt) hr
    have hjump : p.JumpsTo i j instr l := ⟨hn, hl, hj⟩
    rcases hplace with hji | ⟨hij, hsome⟩
    · exact (hshort hjump).mpr (h.fits_behind hp hjump hji hr ih)
    · obtain ⟨layout₀, rfl⟩ := Option.isSome_iff_exists.mp hsome
      obtain ⟨_, _, walk₀, extent₀, -, h₀⟩ := hrelaxing.exists_arrival
      have hwithin := hprevious layout₀ rfl
      rcases h₀.length_jump hn hl with ⟨-, hlength⟩ | ⟨-, hlength⟩
      · exact hwithin i instr l hn hl ((h₀.isShort_iff hlt).mpr hlength)
      · have hij := Nat.lt_of_le_of_ne hij hjump.ne
        exact (hshort hjump).mpr (h₀.fits_ahead hp h hjump hij hr hlength hwithin)

end Pass

/-- What relaxation makes short every consistent choice makes short. -/
theorem Program.Relaxing.within_of_consistent (hp : p.Valid)
    (hrelaxing : p.Relaxing base limits n previous)
    (h : (p.pass base limits previous).Arrival p.nodeList layout walk extent)
    (hshort : p.Consistent short) : p.Within layout.isShort short := by
  induction hrelaxing generalizing layout walk extent with
  | start => exact h.within hp .start hshort nofun
  | pass hprevious hn hrun hsettled ih =>
    obtain ⟨walk₀, extent₀, h₀⟩ := Pass.exists_arrival hrun
    refine h.within hp (.pass hprevious hn hrun hsettled) hshort fun layout₀ heq => ?_
    cases heq
    exact ih h₀

/-- A relaxation settles in a layout, and this is how its last pass gets there. -/
inductive Program.Settles (p : Program) (base : UInt64) (layout : Layout) (walk : Nat → Walk)
    (extent : Nat → Extent) : Prop
  | mk {limits : Limits} {n : Nat} {previous : Option Layout} :
      p.Relaxing base limits n previous →
      (p.pass base limits previous).Arrival p.nodeList layout walk extent →
      isSettled p.nodeList previous layout = true → Settles p base layout walk extent

/-- The choice of a relaxation that settles is consistent. -/
theorem Program.Settles.consistent (h : p.Settles base layout walk extent) (hp : p.Valid)
    (hroom : p.Room base) : p.Consistent layout.isShort := by
  obtain ⟨hrelaxing, harrival, hsettled⟩ := h
  exact harrival.consistent hp hroom hrelaxing hsettled

/-- No consistent choice makes fewer jumps short than relaxation. -/
theorem Program.Settles.within (h : p.Settles base layout walk extent) (hp : p.Valid)
    (hshort : p.Consistent short) : p.Within layout.isShort short := by
  obtain ⟨hrelaxing, harrival, -⟩ := h
  exact hrelaxing.within_of_consistent hp harrival hshort

end X86Asm
