import X86Asm.Proofs.Layout.Capacity
import X86Asm.Proofs.Layout.Reach

/-!
# When a pass makes an instruction longer

Relaxation is meant to make instructions shorter only. It fails to in one case (`Underestimate`):
a pass comes to a branch that is short in the layout before, and the label, which lies behind the
branch, has an address lower than the slack in between. The estimate would be negative, the label
counts as unknown, and the branch becomes near again. `run_diverges_iff` says that a pass gives up
in this case and in no other.
-/

namespace X86Asm

variable {p : Program} {base : UInt64} {limits : Limits} {n : Nat} {previous : Option Layout}
  {layout : Layout} {pass : Pass} {w : Walk} {node : Node} {mode : Mode} {e : Error}

/-! ## Errors that say something else -/

/-- Whether the error is that a node got longer. -/
def Error.isDivergence : Error → Bool
  | .relaxationDiverged .. => true
  | _ => false

/-- A branch that gets longer is an internal error. -/
theorem Error.isInternal_of_isDivergence (h : e.isDivergence = true) : e.isInternal = true := by
  cases e with
  | relaxationDiverged index previous current => rfl
  | _ => cases h

/-- Whether the error is about what a node says, or about the address that it comes to. -/
def Error.isAboutNode : Error → Bool
  | .unresolvedLabel .. | .invalidMode .. | .invalidOperands .. | .immediateOverflow ..
  | .displacementOutOfRange .. | .invalidParameter _ => true
  | _ => false

/-- An error about a node is no internal error. -/
theorem Error.isInternal_of_isAboutNode (h : e.isAboutNode = true) : e.isInternal = false := by
  cases e with
  | relaxationDiverged index previous current => cases h
  | relaxationLimit max => cases h
  | _ => rfl

/-- Why an instruction has no encoding is about a node. -/
theorem Refusal.isAboutNode_toError (r : Refusal) (m : Mnemonic) :
    (r.toError mode m).isAboutNode = true := by
  cases r <;> rfl

/-- Why a label field is not filled is about a node. -/
theorem LabelField.fill_error {ctx : Context} {lead : List UInt8} {field : LabelField}
    (h : field.fill mode ctx lead = .error e) : e.isAboutNode = true := by
  unfold fill at h
  simp only at h
  split at h <;> split at h <;> cases h <;> rfl

/-- Why an instruction is not encoded is about a node. -/
theorem Instruction.encode_error {i : Instruction} {ctx : Context}
    (h : i.encode mode ctx = .error e) : e.isAboutNode = true := by
  unfold encode at h
  split at h
  · cases h
    exact Refusal.isAboutNode_toError ..
  · obtain ⟨lead, field, -, hfield⟩ := Template.fill_eq_error h
    exact LabelField.fill_error hfield

namespace Pass

/-- Why a gap cannot be filled is about a node. -/
theorem gapExtent_error {address : Nat} {alignment : UInt32}
    (h : gapExtent address alignment = .error e) : e.isAboutNode = true := by
  obtain rfl := gapExtent_eq_error h
  rfl

/-- Why a node has no extent is about that node. -/
theorem extent_error (h : pass.extent w node = .error e) : e.isAboutNode = true := by
  cases node with
  | instruction i =>
    rcases bind_eq_error_iff.mp h with h | ⟨encoded, -, h⟩
    · exact i.encode_error h
    · cases h
  | sectionStart s => exact gapExtent_error h
  | align alignment filler => exact gapExtent_error h
  | _ => cases h

/-- A layout that gets too large is no internal error. -/
theorem checkEnd_error {index address : Nat} (h : pass.checkEnd index address = .error e) :
    e.isInternal = false := by
  unfold checkEnd at h
  split at h
  · cases h
    rfl
  · split at h <;> cases h
    rfl

/-- Only an instruction that gets longer than in the pass before is refused for that. -/
theorem checkGrowth_error {length : Nat} (h : pass.checkGrowth w node length = .error e) :
    e.isDivergence = true ∧
      ∃ last, node.isInstruction ∧ pass.last? w = some last ∧ last.length < length := by
  unfold checkGrowth at h
  split at h
  · cases h
  · rename_i last hlast
    split at h
    · rename_i hgrowth
      rw [Bool.and_eq_true, decide_eq_true_eq] at hgrowth
      cases h
      exact ⟨rfl, last, hgrowth.1, hlast, hgrowth.2⟩
    · cases h

/-- What fails in a step is the node itself, or that it got longer, or that it ends too late. -/
theorem step_eq_error (h : pass.step w node = .error e) :
    pass.extent w node = .error e ∨ ∃ extent, pass.extent w node = .ok extent ∧
      (pass.checkGrowth w node extent.length = .error e ∨
        pass.checkEnd w.count (w.address + extent.length) = .error e) := by
  rcases bind_eq_error_iff.mp h with h | ⟨extent, hextent, h⟩
  · exact .inl h
  · refine .inr ⟨extent, hextent, ?_⟩
    rcases bind_eq_error_iff.mp h with h | ⟨_, -, h⟩
    · exact .inl h
    · rcases bind_eq_error_iff.mp h with h | ⟨_, -, h⟩
      · exact .inr h
      · cases h

/-- A step diverges exactly if its node is an instruction that got longer. -/
theorem step_diverges_iff : (∃ e, pass.step w node = .error e ∧ e.isDivergence) ↔
    ∃ last extent, node.isInstruction ∧ pass.last? w = some last ∧
      pass.extent w node = .ok extent ∧ last.length < extent.length := by
  constructor
  · rintro ⟨e, h, hdiv⟩
    rcases step_eq_error h with h | ⟨extent, hextent, h | h⟩
    · have habout := Error.isInternal_of_isAboutNode (extent_error h)
      cases (Error.isInternal_of_isDivergence hdiv).symm.trans habout
    · obtain ⟨-, last, hinstr, hlast, hgrowth⟩ := checkGrowth_error h
      exact ⟨last, extent, hinstr, hlast, hextent, hgrowth⟩
    · cases (Error.isInternal_of_isDivergence hdiv).symm.trans (checkEnd_error h)
  · rintro ⟨last, extent, hinstr, hlast, hextent, hgrowth⟩
    refine ⟨.relaxationDiverged (UInt64.ofNat w.count) (UInt64.ofNat last.length)
      (UInt64.ofNat extent.length), ?_, rfl⟩
    refine bind_eq_error_iff.mpr (.inr ⟨extent, hextent, bind_eq_error_iff.mpr (.inl ?_)⟩)
    simp [checkGrowth, hlast, hinstr, hgrowth]

/-- A pass does not count passes. -/
theorem run_ne_relaxationLimit {nodes : List Node} {max : UInt64} :
    pass.run nodes ≠ .error (.relaxationLimit max) := by
  intro h
  obtain ⟨w, node, hstep⟩ := exists_step_of_error h
  rcases step_eq_error hstep with h | ⟨extent, -, h | h⟩
  · cases extent_error h
  · cases (checkGrowth_error h).1
  · cases checkEnd_error h

end Pass

/-! ## The branch that gets longer -/

/-- After `n` passes the next one comes to the branch with the index `index`. It is short in the
layout of the pass before, and its label has been placed already, at an address that is lower than
the slack in between. -/
structure Underestimate (p : Program) (base : UInt64) (limits : Limits) (n : Nat)
    (layout : Layout) (index : Nat) (w : Walk) : Prop where
  relaxing : p.Relaxing base limits n (some layout)
  lt_maxPasses : n < limits.maxPasses.toNat
  walk_eq : (p.nodeList.take index).foldlM (p.pass base limits (some layout)).step
    { address := base.toNat } = .ok w
  exists_branch : ∃ instr b mark last, p.nodeList[index]? = some (.instruction instr) ∧
    instr.template p.mode = .ok (.branch b) ∧ layout.placements[index]? = some last ∧
      last.length = 2 ∧ w.placed.marks.find? b.label = some mark ∧
        mark.address < w.slack - mark.slack

/-- Only a base that is lower than the capacity of the gaps lets this happen. -/
theorem Underestimate.base_lt {index : Nat} (hunder : Underestimate p base limits n layout index w)
    (hp : p.Valid) : base.toNat < p.capacity := by
  obtain ⟨instr, b, mark, last, hn, -, -, -, hmark, hlow⟩ := hunder.exists_branch
  obtain ⟨hlt, -⟩ := List.getElem?_eq_some_iff.mp hn
  obtain ⟨walk, extent, htrace, rfl⟩ := Pass.exists_trace (Nat.le_of_lt hlt) hunder.walk_eq
  obtain ⟨j, hj, -, rfl⟩ := htrace.exists_of_find?_marks (Nat.le_refl _) hmark
  have hslack := htrace.slack_le hp (Nat.le_refl _)
  have haddress : base.toNat ≤ (walk j).address := htrace.base_le (Nat.le_of_lt hj)
  simp only at hlow
  omega

namespace Pass

variable {walk₀ walk : Nat → Walk} {extent₀ : Nat → Extent} {extent : Nat → Extent} {i : Nat}
  {instr : Instruction} {e₀ e' : Extent}

/-- An instruction that gets longer is a branch that has been short and whose estimate is
negative. -/
theorem Trace.underestimate_of_growth (hrelaxing : p.Relaxing base limits n previous)
    (hp : p.Valid) (h₀ : (p.pass base limits previous).Arrival p.nodeList layout walk₀ extent₀)
    {k : Nat} (h : (p.pass base limits (some layout)).Trace p.nodeList k walk extent)
    (hn : p.nodeList[k]? = some (.instruction instr))
    (he : (p.pass base limits (some layout)).extent (walk k) (.instruction instr) = .ok e')
    (hgrowth : (extent₀ k).length < e'.length) :
    ∃ b mark, instr.template p.mode = .ok (.branch b) ∧ (extent₀ k).length = 2 ∧
      (walk k).placed.marks.find? b.label = some mark ∧
        mark.address < (walk k).slack - mark.slack := by
  obtain ⟨hlt, -⟩ := List.getElem?_eq_some_iff.mp hn
  have he₀ := h₀.trace.extent_eq k _ hlt hn
  obtain ⟨t, ht⟩ := exists_template he
  have hlen := length_of_extent he ht
  have hlen₀ := length_of_extent he₀ ht
  by_cases hbranch : ∃ b, t = .branch b ∧ b.short?.isSome
  · obtain ⟨b, rfl, hshort⟩ := hbranch
    have hspace := h.inSpace (p.pass_base_lt base limits _) (Nat.le_refl k)
    have hspace₀ := h₀.trace.inSpace (p.pass_base_lt base limits _) (Nat.le_of_lt hlt)
    have hnear := two_lt_near ht
    rcases length_branch hspace₀ he₀ ht hshort with ⟨hr₀, htwo⟩ | ⟨-, hnear₀⟩
    · rcases length_branch hspace he ht hshort with ⟨-, htwo'⟩ | ⟨hr, -⟩
      · omega
      · obtain ⟨j, hj, hclose⟩ := h₀.close_of_reaches hrelaxing hp (Nat.le_of_lt hlt) hr₀
        obtain ⟨hji, hlow⟩ := h.reaches_of_close hp h₀ (Nat.le_refl k) hj hclose hr
        have hmark := (h.find?_marks_iff hp.uniqueLabels (Nat.le_refl k)).mpr ⟨j, hji, hj, rfl⟩
        exact ⟨b, _, ht, htwo, hmark, hlow⟩
    · rcases length_branch hspace he ht hshort with ⟨-, htwo'⟩ | ⟨-, hnear'⟩ <;> omega
  · -- the length of everything else is the same in all passes
    rw [hlen, hlen₀, Template.length_congr hbranch] at hgrowth
    exact absurd hgrowth (Nat.lt_irrefl _)

/-- A branch whose estimate is negative is made near. -/
theorem Trace.growth_of_underestimate (hp : p.Valid)
    (h₀ : (p.pass base limits previous).Arrival p.nodeList layout walk₀ extent₀)
    {k : Nat} (h : (p.pass base limits (some layout)).Trace p.nodeList k walk extent)
    (hn : p.nodeList[k]? = some (.instruction instr)) {b : Branch} {mark : Mark}
    (ht : instr.template p.mode = .ok (.branch b)) (htwo : (extent₀ k).length = 2)
    (hmark : (walk k).placed.marks.find? b.label = some mark)
    (hlow : mark.address < (walk k).slack - mark.slack) :
    ∃ e, (p.pass base limits (some layout)).extent (walk k) (.instruction instr) = .ok e ∧
      (extent₀ k).length < e.length := by
  obtain ⟨hlt, -⟩ := List.getElem?_eq_some_iff.mp hn
  have he₀ := h₀.trace.extent_eq k _ hlt hn
  have hnear := two_lt_near ht
  have hshort : b.short?.isSome := by
    by_contra hnone
    have hlen₀ := length_of_extent he₀ ht
    rw [Template.length, if_neg (by simp_all [Branch.takesShort])] at hlen₀
    omega
  obtain ⟨j, hji, hj, rfl⟩ := h.exists_of_find?_marks (Nat.le_refl k) hmark
  -- a negative estimate is no address, so the target counts as out of reach
  have hr : ¬ (p.pass base limits (some layout)).Reaches (walk k) b.label := by
    rw [h.reaches_behind_iff hp.uniqueLabels (Nat.le_refl k) hj hji]
    exact fun hc => absurd hc.1 (Nat.not_le.mpr hlow)
  obtain ⟨encoded, hencoded⟩ : ∃ encoded, instr.encode p.mode
      ((p.pass base limits (some layout)).context (walk k)) = .ok encoded := by
    unfold Instruction.encode
    rw [ht]
    exact Template.exists_fill rfl _
  have he : (p.pass base limits (some layout)).extent (walk k) (.instruction instr) =
      .ok { length := encoded.bytes.length } := bind_eq_ok_iff.mpr ⟨encoded, hencoded, rfl⟩
  refine ⟨_, he, ?_⟩
  rcases length_branch (h.inSpace (p.pass_base_lt base limits _) (Nat.le_refl k)) he ht hshort with
    ⟨hr', -⟩ | ⟨-, hlen⟩
  · exact absurd hr' hr
  · omega

/-- A pass diverges exactly if it comes to a branch whose estimate is negative and that was short
before. -/
theorem run_diverges_iff (hrelaxing : p.Relaxing base limits n previous)
    (hn : n < limits.maxPasses.toNat) (hp : p.Valid) :
    (∃ e, (p.pass base limits previous).run p.nodeList = .error e ∧ e.isDivergence) ↔
      ∃ layout index w, previous = some layout ∧ Underestimate p base limits n layout index w := by
  constructor
  · -- the step that fails makes a node longer than in the pass before
    rintro ⟨e, h, hdiv⟩
    obtain ⟨k, node, walk, extent, hn', htrace, hw, hstep⟩ := exists_trace_of_error h
    obtain ⟨last, e', hinstr, hlast, hextent, hgrowth⟩ := step_diverges_iff.mp ⟨e, hstep, hdiv⟩
    obtain ⟨layout, rfl, hlast'⟩ := Option.bind_eq_some_iff.mp hlast
    obtain ⟨instr, rfl⟩ : ∃ instr, node = .instruction instr := by
      cases node with
      | instruction instr => exact ⟨instr, rfl⟩
      | _ => cases hinstr
    obtain ⟨m, previous₀, walk₀, extent₀, hrelaxing₀, h₀⟩ := hrelaxing.exists_arrival
    obtain ⟨hlt, -⟩ := List.getElem?_eq_some_iff.mp hn'
    rw [htrace.last?_eq h₀ (Nat.le_refl _) hlt] at hlast
    cases hlast
    obtain ⟨b, mark, ht, htwo, hmark, hlow⟩ :=
      htrace.underestimate_of_growth hrelaxing₀ hp h₀ hn' hextent hgrowth
    refine ⟨layout, k, _, rfl, hrelaxing, hn, hw, ?_⟩
    exact ⟨instr, b, mark, _, hn', ht, h₀.placement hlt, htwo, hmark, hlow⟩
  · -- the steps up to the branch succeed, and the next one fails
    rintro ⟨layout, index, w, rfl, hunder⟩
    obtain ⟨instr, b, mark, last, hn', ht, hlast, htwo, hmark, hlow⟩ := hunder.exists_branch
    obtain ⟨m, previous₀, walk₀, extent₀, hrelaxing₀, h₀⟩ := hrelaxing.exists_arrival
    obtain ⟨hlt, hget⟩ := List.getElem?_eq_some_iff.mp hn'
    obtain ⟨walk, extent, htrace, rfl⟩ := exists_trace (Nat.le_of_lt hlt) hunder.walk_eq
    rw [h₀.placement hlt] at hlast
    cases hlast
    obtain ⟨e', he, hgrowth⟩ :=
      htrace.growth_of_underestimate hp h₀ hn' ht htwo hmark hlow
    obtain ⟨e, hstep, hdiv⟩ := step_diverges_iff.mpr
      ⟨_, e', rfl, htrace.last?_eq h₀ (Nat.le_refl _) hlt, he, hgrowth⟩
    refine ⟨e, map_eq_error_iff.mpr (foldlM_eq_error_iff.mpr ?_), hdiv⟩
    refine ⟨p.nodeList.take index, .instruction instr, p.nodeList.drop (index + 1), _, ?_,
      hunder.walk_eq, hstep⟩
    rw [← hget, List.getElem_cons_drop, List.take_append_drop]

end Pass

end X86Asm
