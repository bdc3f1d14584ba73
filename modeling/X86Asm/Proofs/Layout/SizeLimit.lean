import X86Asm.Proofs.Layout.Consistent
import X86Asm.Proofs.Layout.Divergence

/-!
# The limit on the size

A pass goes as one without a limit does, up to the first node that ends past the limit, and there it
gives up (`Pass.step_eq`, `Pass.run_of_outgrows`, `Pass.run_of_not_outgrows`).

Addresses do not go up from pass to pass, so no pass gets farther than the first one does
(`Relaxing.exists_first`). The first pass alone decides: if it outgrows the limit relaxation gives
up, and if not the limit has no effect (`relax_of_outgrows`, `relax_of_not_outgrows`). But in the
first pass jumps to labels ahead are near, and the layout that relaxation arrives at may be smaller
(`Relaxing.exists_draftSize`).
-/

namespace X86Asm

variable {p : Program} {base : UInt64} {limits : Limits} {previous : Option Layout}
  {layout : Layout} {pass : Pass} {nodes : List Node} {w w' : Walk} {node : Node} {e : Error}
  {walk₀ walk : Nat → Walk} {extent₀ extent : Nat → Extent} {k n first : Nat}

/-- The limits with no limit on the size but the number of addresses. -/
def Limits.unbounded (limits : Limits) : Limits :=
  { limits with maxOutputBytes := 0xFFFFFFFFFFFFFFFF }

/-- Whether the error is that a limit is exceeded. -/
def Error.isLimit : Error → Bool
  | .limitExceeded .. => true
  | _ => false

/-- An error about a node is not about a limit. -/
theorem Error.isLimit_of_isAboutNode (h : e.isAboutNode = true) : e.isLimit = false := by
  cases e with
  | limitExceeded resource max => cases h
  | _ => rfl

/-- A branch that gets longer is not about a limit. -/
theorem Error.isLimit_of_isDivergence (h : e.isDivergence = true) : e.isLimit = false := by
  cases e with
  | relaxationDiverged index previous current => rfl
  | _ => cases h

/-! ## A pass with a limit and one without -/

namespace Pass

/-- How long a node is does not depend on the limit. -/
theorem extent_maxBytes (pass : Pass) (maxBytes : Nat) (w : Walk) (node : Node) :
    { pass with maxBytes }.extent w node = pass.extent w node := by
  cases node <;> rfl

/-- The pass without a limit on the size. -/
def unlimited (pass : Pass) : Pass := { pass with maxBytes := addressSpace - 1 }

/-- What is placed takes more bytes than there may be. -/
def Exceeds (pass : Pass) (w : Walk) : Prop := pass.maxBytes < w.address - pass.base

/-- The error about the limit on the size. -/
def limitError (pass : Pass) : Error := .limitExceeded "output bytes" (UInt64.ofNat pass.maxBytes)

/-- Checks that what is placed does not take more bytes than there may be. -/
def within (pass : Pass) (w : Walk) : Except Error Walk :=
  if pass.maxBytes < w.address - pass.base then .error pass.limitError else .ok w

/-- The pass places the first `k` nodes. -/
def ComesTo (pass : Pass) (nodes : List Node) (k : Nat) (w : Walk) : Prop :=
  k ≤ nodes.length ∧ (nodes.take k).foldlM pass.step { address := pass.base } = .ok w

/-- Without a limit the pass would come to more bytes than there may be. -/
def Outgrows (pass : Pass) (nodes : List Node) : Prop :=
  ∃ k w, pass.unlimited.ComesTo nodes k w ∧ pass.Exceeds w

/-- No node ends past the number of addresses without ending past the last of them. -/
theorem checkEnd_unlimited (pass : Pass) (index address : Nat) :
    pass.unlimited.checkEnd index address =
      if addressSpace ≤ address then .error (.layoutPastEnd index) else .ok () := by
  have hmax : pass.unlimited.maxBytes = addressSpace - 1 := rfl
  unfold checkEnd
  split
  · rfl
  · rw [if_neg (by omega)]

/-- The end of a node is compared with the address space first, and with the limit then. -/
theorem checkEnd_eq (pass : Pass) (index address : Nat) :
    pass.checkEnd index address = pass.unlimited.checkEnd index address >>= fun _ =>
      if pass.maxBytes < address - pass.base then .error pass.limitError else .ok () := by
  rw [checkEnd_unlimited]
  unfold checkEnd
  split <;> rfl

/-- The limit is looked at behind each node and nowhere else. -/
theorem step_eq (pass : Pass) (w : Walk) (node : Node) :
    pass.step w node = pass.unlimited.step w node >>= pass.within := by
  have hextent : pass.unlimited.extent w node = pass.extent w node := extent_maxBytes ..
  have hgrowth (length : Nat) : pass.unlimited.checkGrowth w node length =
    pass.checkGrowth w node length := rfl
  unfold step
  simp only [hextent, hgrowth, checkEnd_eq pass, bind_assoc]
  refine bind_congr fun extent => bind_congr fun _ => bind_congr fun _ => ?_
  -- both sides compare the end of the node with the limit
  change _ = pass.within (w.place node extent)
  by_cases hexceeds : pass.maxBytes < w.address + extent.length - pass.base
  · rw [if_pos hexceeds]
    exact (if_pos hexceeds).symm
  · rw [if_neg hexceeds]
    exact (if_neg hexceeds).symm

/-- A pass gives up behind the node that takes too many bytes. -/
theorem step_of_exceeds (h : pass.unlimited.step w node = .ok w') (hw : pass.Exceeds w') :
    pass.step w node = .error pass.limitError := by
  rw [step_eq, h]
  exact if_pos hw

/-- A pass goes on behind a node that does not take too many bytes. -/
theorem step_of_not_exceeds (h : pass.unlimited.step w node = .ok w') (hw : ¬ pass.Exceeds w') :
    pass.step w node = .ok w' := by
  rw [step_eq, h]
  exact if_neg hw

/-- Once there are too many bytes the pass gives up, unless there are too many to start with. -/
theorem foldlM_of_exceeds {start : Walk} (hstart : ¬ pass.Exceeds start)
    (h : (nodes.take k).foldlM pass.unlimited.step start = .ok w) (hw : pass.Exceeds w) :
    nodes.foldlM pass.step start = .error pass.limitError := by
  induction nodes generalizing k start with
  | nil =>
    rw [List.take_nil] at h
    cases h
    exact absurd hw hstart
  | cons node nodes ih =>
    cases k with
    | zero =>
      cases h
      exact absurd hw hstart
    | succ k =>
      rw [List.take_succ_cons, List.foldlM_cons, bind_eq_ok_iff] at h
      obtain ⟨next, hstep, h⟩ := h
      rw [List.foldlM_cons]
      -- either this step is the first that exceeds the limit, or a later one is
      by_cases hnext : pass.Exceeds next
      · rw [step_of_exceeds hstep hnext]
        rfl
      · rw [step_of_not_exceeds hstep hnext]
        exact ih hnext h

/-- As long as there are not too many bytes the limit has no effect. -/
theorem foldlM_of_not_exceeds {start : Walk}
    (h : ∀ k ≤ nodes.length, ∀ w, (nodes.take k).foldlM pass.unlimited.step start = .ok w →
      ¬ pass.Exceeds w) :
    nodes.foldlM pass.step start = nodes.foldlM pass.unlimited.step start := by
  induction nodes generalizing start with
  | nil => rfl
  | cons node nodes ih =>
    rw [List.foldlM_cons, List.foldlM_cons]
    cases hstep : pass.unlimited.step start node with
    | error e =>
      rw [step_eq, hstep]
      rfl
    | ok next =>
      have hrest {k : Nat} {w : Walk}
          (hw : (nodes.take k).foldlM pass.unlimited.step next = .ok w) :
          ((node :: nodes).take (k + 1)).foldlM pass.unlimited.step start = .ok w := by
        rw [List.take_succ_cons, List.foldlM_cons, hstep]
        exact hw
      rw [step_of_not_exceeds hstep (h 1 (by simp) next (hrest rfl))]
      exact ih fun k hk w hw => h (k + 1) (Nat.succ_le_succ hk) w (hrest hw)

/-- No bytes are not too many. -/
theorem not_exceeds_start (pass : Pass) : ¬ pass.Exceeds { address := pass.base } := by
  simp [Exceeds]

/-- A pass that would come to too many bytes gives up. -/
theorem run_of_outgrows (h : pass.Outgrows nodes) : pass.run nodes = .error pass.limitError := by
  obtain ⟨k, w, ⟨-, hfold⟩, hw⟩ := h
  exact map_eq_error_iff.mpr (foldlM_of_exceeds pass.not_exceeds_start hfold hw)

/-- A pass that would not is not affected by the limit. -/
theorem run_of_not_outgrows (h : ¬ pass.Outgrows nodes) :
    pass.run nodes = pass.unlimited.run nodes :=
  congrArg _ (foldlM_of_not_exceeds fun k hk w hw hexceeds => h ⟨k, w, ⟨hk, hw⟩, hexceeds⟩)

/-- Without a limit no pass gives up for its size. -/
theorem isLimit_of_run_unlimited (h : pass.unlimited.run nodes = .error e) : e.isLimit = false := by
  obtain ⟨w, node, hstep⟩ := exists_step_of_error h
  rcases step_eq_error hstep with h | ⟨extent, -, h | h⟩
  · exact Error.isLimit_of_isAboutNode (extent_error h)
  · exact Error.isLimit_of_isDivergence (checkGrowth_error h).1
  · rw [checkEnd_unlimited] at h
    split at h <;> cases h
    rfl

end Pass

/-! ## Relaxation with a limit and without one -/

namespace Program

/-- The first pass outgrows the limit. -/
def Outgrows (p : Program) (base : UInt64) (limits : Limits) : Prop :=
  0 < limits.maxPasses.toNat ∧ (p.pass base limits none).Outgrows p.nodeList

/-- The number of bytes that the first pass makes room for, if it succeeds without a limit on the
size. -/
def draftSize? (p : Program) (base : UInt64) : Option Nat :=
  (p.nodeList.foldlM (p.pass base (Limits.unbounded {}) none).step
    { address := base.toNat }).toOption.map (·.address - base.toNat)

/-- A pass without its limit is the pass of a relaxation without one. -/
theorem unlimited_pass (p : Program) (base : UInt64) (limits : Limits) (previous : Option Layout) :
    (p.pass base limits previous).unlimited = p.pass base limits.unbounded previous := rfl

/-- A pass that takes too many bytes names the limit of the relaxation. -/
theorem limitError_pass (p : Program) (base : UInt64) (limits : Limits)
    (previous : Option Layout) : (p.pass base limits previous).limitError =
      .limitExceeded "output bytes" limits.maxOutputBytes :=
  congrArg _ (UInt64.ofNat_toNat ..)

/-- No pass gets farther with the first nodes than the first one does. -/
theorem Relaxing.exists_first (hp : p.Valid) (h : p.Relaxing base limits n previous)
    (hw : (p.pass base limits previous).ComesTo p.nodeList k w) :
    ∃ w₀, (p.pass base limits none).ComesTo p.nodeList k w₀ ∧ w.address ≤ w₀.address := by
  induction h generalizing w with
  | start => exact ⟨w, hw, Nat.le_refl _⟩
  | pass _ _ hrun _ ih =>
    obtain ⟨hk, hfold⟩ := hw
    obtain ⟨walk₀, extent₀, h₀⟩ := Pass.exists_arrival hrun
    obtain ⟨walk, extent, h, rfl⟩ := Pass.exists_trace hk hfold
    obtain ⟨w₀, hw₀, hle⟩ := ih ⟨hk, h₀.trace.foldlM_eq hk⟩
    exact ⟨w₀, hw₀, Nat.le_trans (h.address_le hp h₀ (Nat.le_refl k)) hle⟩

/-- A program whose first pass outgrows the limit has no layout. -/
theorem relax_of_outgrows (h : p.Outgrows base limits) :
    p.relax base limits = (.error (.limitExceeded "output bytes" limits.maxOutputBytes), 1) := by
  obtain ⟨hpasses, houtgrows⟩ := h
  have hrun := Pass.run_of_outgrows houtgrows
  rw [limitError_pass] at hrun
  exact Relaxing.start.relax_of_error hpasses hrun

section

variable (hp : p.Valid) (hfits : ¬ p.Outgrows base limits)

include hp hfits

/-- The limit has no effect on a pass of a relaxation that does not outgrow it. -/
theorem Relaxing.run_unbounded (h : p.Relaxing base limits.unbounded n previous)
    (hn : n < limits.maxPasses.toNat) :
    (p.pass base limits previous).run p.nodeList =
      (p.pass base limits.unbounded previous).run p.nodeList := by
  rw [← unlimited_pass]
  refine Pass.run_of_not_outgrows fun ⟨k, w, hw, hexceeds⟩ => hfits ⟨Nat.zero_lt_of_lt hn, ?_⟩
  obtain ⟨w₀, hw₀, hle⟩ := h.exists_first hp hw
  refine ⟨k, w₀, hw₀, ?_⟩
  exact Nat.lt_of_lt_of_le hexceeds (Nat.sub_le_sub_right hle base.toNat)

/-- A relaxation that does not outgrow the limit gets as far with it as without. -/
theorem Relaxing.of_unbounded (h : p.Relaxing base limits.unbounded n previous) :
    p.Relaxing base limits n previous := by
  induction h with
  | start => exact .start
  | pass hprevious hn hrun hunsettled ih =>
    exact .pass ih hn ((hprevious.run_unbounded hp hfits hn).trans hrun) hunsettled

/-- If the first pass does not outgrow the limit, the limit has no effect. -/
theorem relax_of_not_outgrows : p.relax base limits = p.relax base limits.unbounded := by
  have houtcome := p.relax_outcome base limits.unbounded
  generalize p.relax base limits.unbounded = outcome at houtcome ⊢
  cases houtcome with
  | exhausted h => exact (h.of_unbounded hp hfits).relax_of_exhausted
  | failed h hn hrun =>
    exact (h.of_unbounded hp hfits).relax_of_error hn ((h.run_unbounded hp hfits hn).trans hrun)
  | settled h hn hrun hsettled =>
    exact (h.of_unbounded hp hfits).relax_of_settled hn
      ((h.run_unbounded hp hfits hn).trans hrun) hsettled

end

/-- Without a limit relaxation does not give up for the size. -/
theorem isLimit_of_relax_unbounded (h : (p.relax base limits.unbounded).1 = .error e) :
    e.isLimit = false := by
  rcases relax_eq_error h with rfl | ⟨n, previous, -, -, hrun⟩
  · rfl
  · rw [← unlimited_pass] at hrun
    exact Pass.isLimit_of_run_unlimited hrun

/-! ## What the first pass takes -/

/-- The draft size is what the first pass comes to without a limit. -/
theorem draftSize?_eq_some_iff (limits : Limits) : p.draftSize? base = some first ↔
    ∃ w, (p.pass base limits.unbounded none).ComesTo p.nodeList p.nodeList.length w ∧
      w.address - base.toNat = first := by
  have hdraft : p.draftSize? base =
    (p.nodeList.foldlM (p.pass base limits.unbounded none).step
      { address := (p.pass base limits.unbounded none).base }).toOption.map
        (·.address - base.toNat) := rfl
  rw [hdraft, Option.map_eq_some_iff]
  refine exists_congr fun w => and_congr_left fun _ => ?_
  rw [toOption_eq_some_iff, Pass.ComesTo, List.take_length]
  exact (and_iff_right (Nat.le_refl _)).symm

/-- Whether the limit is outgrown is decided at the end of the first pass, if it gets there. -/
theorem outgrows_iff_of_draftSize (h : p.draftSize? base = some first) :
    p.Outgrows base limits ↔
      0 < limits.maxPasses.toNat ∧ limits.maxOutputBytes.toNat < first := by
  obtain ⟨last, ⟨hlength, hlast⟩, rfl⟩ := (draftSize?_eq_some_iff limits).mp h
  refine and_congr_right fun _ => ⟨?_, fun hexceeds => ⟨_, last, ⟨hlength, hlast⟩, hexceeds⟩⟩
  rintro ⟨k, w, ⟨hk, hw⟩, hexceeds⟩
  obtain ⟨walk, extent, htrace, rfl⟩ := Pass.exists_trace hlength hlast
  -- the walk on the way is not farther than the last one
  obtain rfl : walk k = w := Except.ok.inj ((htrace.foldlM_eq hk).symm.trans hw)
  obtain ⟨hle, -⟩ := htrace.le_of_le hk (Nat.le_refl _)
  exact Nat.lt_of_lt_of_le hexceeds (Nat.sub_le_sub_right hle base.toNat)

/-- A jump that is near takes at most four bytes more than a short one. -/
theorem spanIf_le_add (p : Program) (node : Node) (short short' : Bool) :
    p.spanIf short node ≤ p.spanIf short' node + if node.isJump then 4 else 0 := by
  cases hjump : node.isJump with
  | false =>
    rw [spanIf_of_not_jump hjump, spanIf_of_not_jump hjump]
    exact Nat.le_add_right _ _
  | true =>
    obtain ⟨instr, l, rfl, hl⟩ := Node.isJump_eq_true hjump
    have hshort := instr.two_lt_nearLength p.mode
    have hnear := instr.nearLength_le p.mode
    rw [spanIf_jump hl, spanIf_jump hl, if_pos rfl]
    split <;> split <;> omega

/-- By any two choices the program differs by at most four bytes for each jump. -/
theorem distance_le_add (p : Program) (short short' : Nat → Bool) :
    p.distance short 0 p.nodeList.length ≤
      p.distance short' 0 p.nodeList.length + 4 * p.jumps := by
  have hjumps : 4 * p.jumps =
      ∑ k ∈ Finset.Ico 0 p.nodeList.length, if p.nodeList[k]?.any Node.isJump then 4 else 0 := by
    rw [← Finset.sum_filter, Finset.sum_const_nat fun _ _ => rfl, ← Finset.range_eq_Ico,
      p.card_filter_isJump, Nat.mul_comm]
  rw [hjumps, distance, distance, ← Finset.sum_add_distrib]
  refine Finset.sum_le_sum fun k _ => ?_
  cases p.nodeList[k]? with
  | none => exact Nat.zero_le _
  | some node => exact p.spanIf_le_add node (short k) (short' k)

/-- The first pass does not take less than a later one, and what it takes more is no more than the
near jumps and the gaps can make it. -/
theorem Relaxing.exists_draftSize (hp : p.Valid) (h : p.Relaxing base limits.unbounded n previous)
    (harrival : (p.pass base limits.unbounded previous).Arrival p.nodeList layout walk extent) :
    ∃ first, p.draftSize? base = some first ∧
      (walk p.nodeList.length).address ≤ base.toNat + first ∧
      base.toNat + first ≤
        (walk p.nodeList.length).address + (4 * p.jumps + p.capacity) := by
  have hall := Nat.le_refl p.nodeList.length
  obtain ⟨w₀, ⟨-, hw₀⟩, hle⟩ := h.exists_first hp ⟨hall, harrival.trace.foldlM_eq hall⟩
  obtain ⟨walk₀, extent₀, htrace₀, rfl⟩ := Pass.exists_trace hall hw₀
  have h₀ : (p.pass base limits.unbounded none).Arrival p.nodeList
    (walk₀ p.nodeList.length).placed walk₀ extent₀ := ⟨htrace₀, rfl⟩
  refine ⟨_, (draftSize?_eq_some_iff limits).mpr ⟨_, ⟨hall, hw₀⟩, rfl⟩, ?_⟩
  have hbase : base.toNat ≤ (walk₀ p.nodeList.length).address := htrace₀.base_le hall
  have hfirst := h₀.stretched_eq_distance hp (Nat.zero_le _) hall
  have hlast := harrival.stretched_eq_distance hp (Nat.zero_le _) hall
  -- both passes are as long as their choices make them, and those differ in jumps only
  have hdistance := p.distance_le_add (walk₀ p.nodeList.length).placed.isShort layout.isShort
  have hslack := harrival.trace.slack_le hp hall
  rw [htrace₀.stretched_zero] at hfirst
  rw [harrival.trace.stretched_zero] at hlast
  have hbase₀ : (p.pass base limits.unbounded none).base = base.toNat := rfl
  have hbase' : (p.pass base limits.unbounded previous).base = base.toNat := rfl
  unfold Walk.stretched at hfirst hlast
  omega

/-- If the second pass settles, or the first one, the first pass takes what the layout takes. -/
theorem Relaxing.draftSize?_of_settled
    (h : p.Relaxing base limits.unbounded n previous) (hn : n ≤ 1)
    (harrival : (p.pass base limits.unbounded previous).Arrival p.nodeList layout walk extent)
    (hsettled : isSettled p.nodeList previous layout = true) :
    p.draftSize? base = some ((walk p.nodeList.length).address - base.toNat) := by
  have hall := Nat.le_refl p.nodeList.length
  cases h with
  | start =>
    exact (draftSize?_eq_some_iff limits).mpr
      ⟨_, ⟨hall, harrival.trace.foldlM_eq hall⟩, rfl⟩
  | @pass n previous₀ layout₀ hprevious _ hrun _ =>
    obtain rfl : n = 0 := by omega
    cases hprevious
    obtain ⟨walk₀, extent₀, h₀⟩ := Pass.exists_arrival hrun
    obtain ⟨hshift, -⟩ := harrival.trace.shift h₀.trace hall hall fun i hi =>
      h₀.extents_eq_of_settled harrival hsettled hi
    have haddress : (walk p.nodeList.length).address = (walk₀ p.nodeList.length).address :=
      Nat.add_right_cancel hshift
    rw [haddress]
    exact (draftSize?_eq_some_iff limits).mpr ⟨_, ⟨hall, h₀.trace.foldlM_eq hall⟩, rfl⟩

end Program

end X86Asm
