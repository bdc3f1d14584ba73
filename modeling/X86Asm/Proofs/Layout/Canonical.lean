import Mathlib.Tactic.IntervalCases
import X86Asm.Proofs.Layout.Consistent
import X86Asm.Proofs.Program.Reachable

/-!
# The canonical choice of short jumps

Relaxation takes the distance back to a label from the pass that it is in and the distance ahead
from the pass before. The plain iteration takes all of them from the round before
(`Program.refit`). It starts with no jump short too, and its rounds add short jumps until the
choice is consistent (`Program.consistent_iterated`), which takes at most as many rounds as
there are jumps.

Both end with the consistent choice that has the fewest short jumps, so they end with the same one
(`Program.relax_canonical`).
-/

namespace X86Asm.Program

variable {p : Program} {base : UInt64} {limits : Limits} {layout : Layout} {passes : Nat}
  {walk : Nat → Walk} {extent : Nat → Extent} {instr instr' : Instruction} {l l' : Label}
  {short short' : Nat → Bool} {i j j' m n : Nat}

instance (p : Program) (short : Nat → Bool) (i j : Nat) (instr : Instruction) :
    Decidable (p.Fits short i j instr) :=
  inferInstanceAs (Decidable (if j < i then _ else _))

/-- A round of the plain iteration: the jumps to bound labels that fit by the distances of a
choice. -/
def refit (p : Program) (short : Nat → Bool) (i : Nat) : Bool :=
  match p.nodeList[i]? with
  | some (.instruction instr) => instr.jumpTarget?.any fun l =>
    (p.nodeList.findIdx? (· = .label l)).any fun j => p.Fits short i j instr
  | _ => false

/-- The choice of the plain iteration after some rounds. No jump is short before the first. -/
def iterated (p : Program) (rounds : Nat) : Nat → Bool := p.refit^[rounds] fun _ => false

/-- A layout has the jumps short that the canonical choice has: that is consistent, no jump is
longer by another consistent choice, and the plain iteration ends with it. -/
structure Canonical (p : Program) (layout : Layout) : Prop where
  /-- A jump is short or near. -/
  length : ∀ ⦃i instr l⦄, p.nodeList[i]? = some (.instruction instr) →
    instr.jumpTarget? = some l →
      layout.length? i = some (if layout.isShort i then 2 else instr.nearLength p.mode)
  consistent : p.Consistent layout.isShort
  longest : ∀ short, p.Consistent short → p.Within layout.isShort short
  iterated : ∀ rounds, p.jumps ≤ rounds → p.Agree layout.isShort (p.iterated rounds)

/-! ## Rounds -/

/-- More jumps fit if more jumps are short. -/
theorem Fits.mono (h : p.Within short short') (hfits : p.Fits short i j instr) :
    p.Fits short' i j instr := by
  have hle (i j : Nat) : p.distance short' i j ≤ p.distance short i j :=
    distance_le fun k instr l _ _ => h k instr l
  have hbehind := hle (j + 1) i
  have hahead := hle (i + 1) j
  unfold Fits at hfits ⊢
  split at hfits
  · rw [if_pos ‹_›]
    omega
  · rw [if_neg ‹_›]
    omega

/-- A jump goes to one label, which one node places. -/
theorem JumpsTo.unique (hp : p.Valid) (h : p.JumpsTo i j instr l) (h' : p.JumpsTo i j' instr' l') :
    instr' = instr ∧ j' = j := by
  have hnode := h'.node.symm.trans h.node
  cases hnode
  obtain rfl : l' = l := Option.some.inj (h'.target.symm.trans h.target)
  exact ⟨rfl, hp.uniqueLabels _ _ _ h'.label h.label⟩

/-- A round has those jumps short that fit. -/
theorem refit_iff (hp : p.Valid) :
    p.refit short i = true ↔ ∃ j instr l, p.JumpsTo i j instr l ∧ p.Fits short i j instr := by
  -- the search finds the node that places the label
  have hlabel (l : Label) : ∀ j, p.nodeList.findIdx? (· = .label l) = some j →
      p.nodeList[j]? = some (.label l) := by
    intro j hj
    obtain ⟨hlt, hnode, -⟩ := List.findIdx?_eq_some_iff_getElem.mp hj
    rw [List.getElem?_eq_getElem hlt, of_decide_eq_true hnode]
  constructor
  · intro h
    unfold refit at h
    split at h
    · rename_i instr hn
      obtain ⟨l, hl, h⟩ := (Option.any_eq_true ..).mp h
      obtain ⟨j, hj, hfits⟩ := (Option.any_eq_true ..).mp h
      exact ⟨j, instr, l, ⟨hn, hl, hlabel l j hj⟩, of_decide_eq_true hfits⟩
    · cases h
  · rintro ⟨j, instr, l, hjump, hfits⟩
    obtain ⟨j', hj'⟩ : ∃ j', p.nodeList.findIdx? (· = .label l) = some j' := by
      rw [← Option.isSome_iff_exists, List.findIdx?_isSome, List.any_eq_true]
      exact ⟨_, List.mem_of_getElem? hjump.label, decide_eq_true rfl⟩
    obtain rfl := hp.uniqueLabels _ _ _ (hlabel l j' hj') hjump.label
    simp only [refit, hjump.node, hjump.target, Option.any_some, hj', decide_eq_true_eq]
    exact hfits

/-- A round has a jump to a bound label short if it fits. -/
theorem refit_iff_fits (hp : p.Valid) (hjump : p.JumpsTo i j instr l) :
    p.refit short i = true ↔ p.Fits short i j instr := by
  rw [refit_iff hp]
  constructor
  · rintro ⟨j', instr', l', hjump', hfits⟩
    obtain ⟨rfl, rfl⟩ := hjump.unique hp hjump'
    exact hfits
  · exact fun hfits => ⟨j, instr, l, hjump, hfits⟩

/-- A round has more jumps short if more are short before. -/
theorem refit_mono (hp : p.Valid) : Monotone p.refit := by
  intro short short' hle i
  rw [Bool.le_iff_imp, refit_iff hp, refit_iff hp]
  rintro ⟨j, instr, l, hjump, hfits⟩
  exact ⟨j, instr, l, hjump, hfits.mono fun k _ _ _ _ => Bool.le_iff_imp.mp (hle k)⟩

/-- A choice that a round does not change is consistent. -/
theorem consistent_of_refit_eq (hp : p.Valid) (h : p.refit short = short) : p.Consistent short :=
  fun i j instr l hjump => by
    rw [← refit_iff_fits hp hjump, h]

/-! ## The plain iteration -/

/-- One round more is a round after the others. -/
theorem iterated_succ (p : Program) (n : Nat) : p.iterated (n + 1) = p.refit (p.iterated n) :=
  Function.iterate_succ_apply' ..

/-- Each round adds short jumps. -/
theorem iterated_mono (hp : p.Valid) : Monotone p.iterated :=
  (refit_mono hp).monotone_iterate_of_le_map fun _ => Bool.false_le _

/-- What the plain iteration makes short every consistent choice makes short. -/
theorem iterated_within (hp : p.Valid) (hshort : p.Consistent short) (n : Nat) :
    p.Within (p.iterated n) short := by
  induction n with
  | zero => exact fun k instr l _ _ hk => nomatch hk
  | succ n ih =>
    intro k instr l hn hl hk
    rw [iterated_succ, refit_iff hp] at hk
    obtain ⟨j, instr', l', hjump, hfits⟩ := hk
    exact (hshort hjump).mpr (hfits.mono ih)

/-- What the plain iteration makes short is a jump to a label that is bound. -/
theorem jumpsTo_of_iterated (hp : p.Valid) (h : p.iterated n i = true) :
    ∃ j instr l, p.JumpsTo i j instr l := by
  cases n with
  | zero => cases h
  | succ n =>
    rw [iterated_succ, refit_iff hp] at h
    obtain ⟨j, instr, l, hjump, -⟩ := h
    exact ⟨j, instr, l, hjump⟩

/-- The jumps that the plain iteration makes short. -/
def iteratedJumps (p : Program) (n : Nat) : Finset Nat :=
  (Finset.range p.nodeList.length).filter fun i => p.iterated n i

/-- The short jumps of the iteration are those that it has short. -/
theorem mem_iteratedJumps (hp : p.Valid) : i ∈ p.iteratedJumps n ↔ p.iterated n i = true := by
  rw [iteratedJumps, Finset.mem_filter, Finset.mem_range]
  refine ⟨And.right, fun h => ⟨?_, h⟩⟩
  obtain ⟨j, instr, l, hjump⟩ := jumpsTo_of_iterated hp h
  exact hjump.lt.1

/-- There are no more short jumps than jumps. -/
theorem card_iteratedJumps_le (hp : p.Valid) (n : Nat) : (p.iteratedJumps n).card ≤ p.jumps := by
  rw [← p.card_filter_isJump]
  refine Finset.card_le_card fun i hi => ?_
  obtain ⟨j, instr, l, hjump⟩ := jumpsTo_of_iterated hp ((mem_iteratedJumps hp).mp hi)
  refine Finset.mem_filter.mpr ⟨Finset.mem_range.mpr hjump.lt.1, ?_⟩
  rw [hjump.node]
  exact Option.isSome_iff_exists.mpr ⟨l, hjump.target⟩

/-- Jumps that are short stay so in later rounds. -/
theorem iteratedJumps_mono (hp : p.Valid) : Monotone p.iteratedJumps := by
  intro m n hmn i hi
  rw [mem_iteratedJumps hp] at hi ⊢
  exact Bool.le_iff_imp.mp (iterated_mono hp hmn i) hi

/-- Rounds that leave the number of short jumps as it is change nothing. -/
theorem iterated_eq_of_card_eq (hp : p.Valid) (hmn : m ≤ n)
    (h : (p.iteratedJumps m).card = (p.iteratedJumps n).card) : p.iterated m = p.iterated n := by
  have heq := Finset.eq_of_subset_of_card_le (iteratedJumps_mono hp hmn) h.ge
  funext i
  rw [Bool.eq_iff_iff, ← mem_iteratedJumps hp, ← mem_iteratedJumps hp, heq]

/-- As many rounds as there are jumps are enough. -/
theorem iterated_eq (hp : p.Valid) (hn : p.jumps ≤ n) : p.iterated n = p.iterated p.jumps := by
  have hmono : Monotone fun m => (p.iteratedJumps m).card :=
    fun _ _ hmn => Finset.card_le_card (iteratedJumps_mono hp hmn)
  refine (iterated_eq_of_card_eq hp hn ?_).symm
  refine (Nat.stabilises_of_monotone hmono (card_iteratedJumps_le hp) (fun m hm => ?_) hn).symm
  have hround := iterated_eq_of_card_eq hp (Nat.le_succ m) hm
  simp only [iteratedJumps, iterated_succ p (m + 1), ← hround, ← iterated_succ p m]

/-- The plain iteration ends with a consistent choice. -/
theorem consistent_iterated (hp : p.Valid) (hn : p.jumps ≤ n) : p.Consistent (p.iterated n) := by
  refine consistent_of_refit_eq hp ?_
  rw [← iterated_succ, iterated_eq hp hn, iterated_eq hp (Nat.le_succ_of_le hn)]

/-! ## The canonical choice -/

/-- A layout in which relaxation settles is canonical. -/
theorem Settles.canonical (h : p.Settles base layout walk extent) (hp : p.Valid)
    (hroom : p.Room base) : p.Canonical layout where
  length := by
    obtain ⟨-, harrival, -⟩ := h
    intro i instr l hn hl
    obtain ⟨hlt, -⟩ := List.getElem?_eq_some_iff.mp hn
    have hshort := harrival.isShort_iff hlt
    have hnear := instr.two_lt_nearLength p.mode
    rw [harrival.length?_eq hlt]
    rcases harrival.length_jump hn hl with ⟨-, hlength⟩ | ⟨-, hlength⟩
    · rw [if_pos (hshort.mpr hlength), hlength]
    · rw [if_neg (by rw [hshort]; omega), hlength]
  consistent := h.consistent hp hroom
  longest := fun _ hshort => h.within hp hshort
  iterated := fun n hn =>
    ⟨h.within hp (consistent_iterated hp hn), iterated_within hp (h.consistent hp hroom) n⟩

/-- **Canonical layout.** If there is room around the base, relaxation settles in the canonical
layout of a reachable program: its choice of short jumps is consistent, every consistent choice has
these jumps short, and the iteration that goes by the distances of the round before comes to the
same choice. -/
theorem relax_canonical (hp : p.Reachable) (hroom : p.Room base)
    (hrelax : p.relax base limits = (.ok layout, passes)) : p.Canonical layout := by
  obtain ⟨n, previous, hrelaxing, -, hrun, hsettled, -⟩ :=
    relax_eq_ok (congrArg Prod.fst hrelax)
  obtain ⟨walk, extent, harrival⟩ := Pass.exists_arrival hrun
  exact Settles.canonical ⟨hrelaxing, harrival, hsettled⟩ hp.valid hroom

/-- Two jumps, each over the other, that are within reach of the short form only if the other one
has it. -/
def crossedJumps : Program :=
  [.createLabel, .createLabel, .emit (.label ⟨0⟩), .emit (.instruction ⟨.jmp, [.label ⟨1⟩]⟩),
    .emit (.data (.replicate 121 0)), .emit (.instruction ⟨.jmp, [.label ⟨0⟩]⟩),
    .emit (.label ⟨1⟩)].foldl Operation.apply (Program.empty .long64)

/-- The crossed jumps are put together by operations. -/
theorem reachable_crossedJumps : crossedJumps.Reachable := by
  refine reachable_foldl .long64 fun op hop => ?_
  simp only [List.mem_cons, List.not_mem_nil, or_false] at hop
  rcases hop with rfl | rfl | rfl | rfl | rfl | rfl | rfl
  case inr.inr.inr.inr.inl => exact .replicate ..
  all_goals trivial

/-- Both jumps short are a consistent choice. -/
theorem consistent_crossedJumps : crossedJumps.Consistent fun _ => true := by
  have hnodes : crossedJumps.nodeList = [.label ⟨0⟩, .instruction ⟨.jmp, [.label ⟨1⟩]⟩,
      .data (.replicate 121 0), .instruction ⟨.jmp, [.label ⟨0⟩]⟩, .label ⟨1⟩] := by
    decide +kernel
  rintro i j instr l ⟨hn, hl, hj⟩
  refine iff_of_true rfl ?_
  rw [hnodes] at hn hj
  obtain ⟨hi, -⟩ := List.getElem?_eq_some_iff.mp hn
  obtain ⟨hj', -⟩ := List.getElem?_eq_some_iff.mp hj
  -- each jump goes to the label at the other end
  obtain ⟨rfl, rfl, rfl⟩ | ⟨rfl, rfl, rfl⟩ :
      (i = 1 ∧ j = 4 ∧ instr = ⟨.jmp, [.label ⟨1⟩]⟩) ∨
        (i = 3 ∧ j = 0 ∧ instr = ⟨.jmp, [.label ⟨0⟩]⟩) := by
    simp only [List.length_cons, List.length_nil] at hi hj'
    interval_cases i <;> cases hn <;> cases hl <;> interval_cases j <;> cases hj <;> simp
  · decide +kernel
  · decide +kernel

/-- It is consistent too that both jumps of `crossedJumps` are near, and this is the canonical
choice. -/
theorem canonical_crossedJumps :
    crossedJumps.Reachable ∧ crossedJumps.Room 0x1000 ∧ crossedJumps.Consistent (fun _ => true) ∧
      ∃ layout, crossedJumps.relax 0x1000 {} = (.ok layout, 2) ∧ layout.isShort 1 = false ∧
        layout.isShort 3 = false ∧ crossedJumps.Canonical layout := by
  have hroom : crossedJumps.Room 0x1000 := ⟨by decide +kernel, by decide +kernel⟩
  have hpasses : (crossedJumps.relax 0x1000 {}).2 = 2 := by decide +kernel
  have hlong : (crossedJumps.relax 0x1000 {}).1.toOption.map
      (fun layout => (layout.isShort 1, layout.isShort 3)) = some (false, false) := by
    decide +kernel
  generalize houtcome : crossedJumps.relax 0x1000 {} = outcome at hpasses hlong
  obtain ⟨_ | layout, passes⟩ := outcome
  · cases hlong
  · obtain rfl : passes = 2 := hpasses
    obtain ⟨hfirst, hsecond⟩ := Prod.mk.inj (Option.some.inj hlong)
    exact ⟨reachable_crossedJumps, hroom, consistent_crossedJumps, layout, rfl, hfirst, hsecond,
      relax_canonical reachable_crossedJumps hroom houtcome⟩

end X86Asm.Program
