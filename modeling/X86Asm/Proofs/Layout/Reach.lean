import X86Asm.Proofs.Encoding.Length
import X86Asm.Proofs.Layout.Shrinking

/-!
# What an estimate says about the distance

A pass makes a branch short if its estimate of the target is within reach. Estimates take gaps to
be as wide as they can be, so a branch that is made short has its target within reach whatever
becomes of the gaps in between (`Close`, `Arrival.close_of_reaches`).

The target of a close branch is within reach in the layout of the pass (`Close.inReach`), and in
the next pass it is estimated to be so, unless it lies behind the branch and so low in the address
space that the estimate would be negative (`Trace.reaches_of_close`).
-/

namespace X86Asm

variable {p : Program} {base : UInt64} {limits : Limits} {n : Nat} {previous : Option Layout}
  {layout : Layout} {pass : Pass} {nodes : List Node} {walk₀ walk : Nat → Walk}
  {extent₀ extent : Nat → Extent} {w : Walk} {instr : Instruction} {b : Branch} {l : Label}
  {e : Extent} {i j k : Nat}

/-- The layout that a relaxation goes by is what an earlier pass arrived at. -/
theorem Program.Relaxing.exists_arrival (h : p.Relaxing base limits n (some layout)) :
    ∃ m previous walk extent, p.Relaxing base limits m previous ∧
      (p.pass base limits previous).Arrival p.nodeList layout walk extent := by
  cases h with
  | @pass m previous _ hprevious _ hrun _ =>
    obtain ⟨walk, extent, harrival⟩ := Pass.exists_arrival hrun
    exact ⟨m, previous, walk, extent, hprevious, harrival⟩

/-- There is a difference if it is not negative. -/
theorem exactSub?_eq_some_iff {a c d : Nat} : exactSub? a c = some d ↔ c ≤ a ∧ d = a - c := by
  unfold exactSub?
  split
  · simp [*, eq_comm]
  · simp [*]

/-- A number is an address if it lies in the address space. -/
theorem inSpace?_eq_some_iff {a d : Nat} : inSpace? a = some d ↔ a < addressSpace ∧ d = a := by
  unfold inSpace?
  split
  · simp [*, eq_comm]
  · simp [*]

namespace Pass

/-- The pass takes a label to be within reach of a short branch. -/
def Reaches (pass : Pass) (w : Walk) (l : Label) : Prop :=
  ∃ target, pass.estimate w l = some target ∧ InReach w.address target

/-- An estimate of a label ahead is an address. -/
theorem estimateAhead_lt {target : Nat} (h : pass.estimateAhead w l = some target) :
    target < addressSpace := by
  unfold estimateAhead at h
  simp only [Option.bind_eq_bind, Option.bind_eq_some_iff] at h
  obtain ⟨_, -, _, -, _, -, _, -, _, -, h⟩ := h
  obtain ⟨hlt, rfl⟩ := inSpace?_eq_some_iff.mp h
  exact hlt

/-- What an instruction is encoded by in a pass. -/
def context (pass : Pass) (w : Walk) : Context where
  address := UInt64.ofNat w.address
  resolve := fun l => (pass.estimate w l).map UInt64.ofNat

/-- An instruction that has an extent has a template. -/
theorem exists_template (he : pass.extent w (.instruction instr) = .ok e) :
    ∃ t, instr.template pass.program.mode = .ok t := by
  obtain ⟨encoded, hencoded, -⟩ := bind_eq_ok_iff.mp he
  obtain ⟨t, ht, -⟩ := Instruction.encode_eq_ok hencoded
  exact ⟨t, ht⟩

/-- An instruction takes as many bytes as its template does by the estimates. -/
theorem length_of_extent {t : Template} (he : pass.extent w (.instruction instr) = .ok e)
    (ht : instr.template pass.program.mode = .ok t) : e.length = t.length (pass.context w) := by
  obtain ⟨encoded, hencoded, he⟩ := bind_eq_ok_iff.mp he
  cases he
  exact Instruction.length_of_encode ht hencoded

/-- Addresses and marks are within the address space. -/
def InSpace (w : Walk) : Prop :=
  w.address < addressSpace ∧
    ∀ l mark, w.placed.marks.find? l = some mark → mark.address < addressSpace

/-- A pass that starts in the address space stays in it. -/
theorem Trace.inSpace (h : pass.Trace nodes k walk extent) (hbase : pass.base < addressSpace)
    (hi : i ≤ k) : InSpace (walk i) := by
  refine ⟨h.address_lt hbase hi, fun l mark hm => ?_⟩
  obtain ⟨j, hj, -, rfl⟩ := h.exists_of_find?_marks hi hm
  exact h.address_lt hbase (Nat.le_trans (Nat.le_of_lt hj) hi)

/-- An estimate is an address. -/
theorem estimate_lt (hw : InSpace w) {target : Nat} (h : pass.estimate w l = some target) :
    target < addressSpace := by
  unfold estimate at h
  split at h
  · rename_i mark hm
    obtain ⟨-, rfl⟩ := exactSub?_eq_some_iff.mp h
    exact Nat.lt_of_le_of_lt (Nat.sub_le ..) (hw.2 l mark hm)
  · exact estimateAhead_lt h

/-- A branch takes its short form if the pass takes the label to be within reach. -/
theorem takesShort_iff_reaches (hw : InSpace w) (hshort : b.short?.isSome) :
    b.takesShort (pass.context w) = true ↔ pass.Reaches w b.label := by
  have haddress := UInt64.toNat_ofNat_of_lt' hw.1
  rw [Branch.takesShort_iff rfl hshort]
  constructor
  · rintro ⟨target, htarget, hreach⟩
    obtain ⟨a, ha, rfl⟩ := Option.map_eq_some_iff.mp htarget
    rw [UInt64.toNat_ofNat_of_lt' (estimate_lt hw ha)] at hreach
    exact ⟨a, ha, haddress ▸ hreach⟩
  · rintro ⟨a, ha, hreach⟩
    refine ⟨UInt64.ofNat a, congrArg (Option.map UInt64.ofNat) ha, ?_⟩
    rw [UInt64.toNat_ofNat_of_lt' (estimate_lt hw ha)]
    exact haddress.symm ▸ hreach

/-- A branch that has a short form takes it if the label is taken to be within reach. -/
theorem length_branch (hw : InSpace w) (he : pass.extent w (.instruction instr) = .ok e)
    (ht : instr.template pass.program.mode = .ok (.branch b)) (hshort : b.short?.isSome) :
    (pass.Reaches w b.label ∧ e.length = 2) ∨
      (¬ pass.Reaches w b.label ∧ e.length = b.near.length + b.nearWidth) := by
  rw [length_of_extent he ht, Template.length, ← takesShort_iff_reaches hw hshort]
  by_cases hs : b.takesShort (pass.context w)
  · exact .inl ⟨hs, if_pos hs⟩
  · exact .inr ⟨hs, if_neg hs⟩

/-! ## Estimates -/

/-- A label behind the walk is estimated to be below its address by the slack in between. -/
theorem Trace.estimate_behind (h : pass.Trace nodes k walk extent) (hunique : UniqueLabels nodes)
    (hi : i ≤ k) (hj : nodes[j]? = some (.label l)) (hji : j < i) :
    pass.estimate (walk i) l = exactSub? (walk j).address ((walk i).slack - (walk j).slack) := by
  unfold estimate
  rw [(h.find?_marks_iff hunique hi).mpr ⟨j, hji, hj, rfl⟩]

/-- A label ahead of the walk has no mark yet. -/
theorem Trace.find?_marks_eq_none (h : pass.Trace nodes k walk extent)
    (hunique : UniqueLabels nodes) (hi : i ≤ k) (hj : nodes[j]? = some (.label l)) (hij : i ≤ j) :
    (walk i).placed.marks.find? l = none := by
  by_contra hne
  obtain ⟨mark, hm⟩ := Option.ne_none_iff_exists'.mp hne
  obtain ⟨m, hmi, hm, -⟩ := h.exists_of_find?_marks hi hm
  have := hunique m j l hm hj
  omega

/-- Ahead, the estimate of the distance is the one of the layout before, with all gaps in between
as wide as they can be. -/
theorem Trace.estimate_ahead (hp : p.Valid)
    (h₀ : (p.pass base limits previous).Arrival p.nodeList layout walk₀ extent₀)
    (h : (p.pass base limits (some layout)).Trace p.nodeList k walk extent) (hi : i ≤ k)
    (hj : p.nodeList[j]? = some (.label l)) (hij : i ≤ j) :
    (p.pass base limits (some layout)).estimate (walk i) l =
      inSpace? ((walk i).address + ((walk₀ j).stretched - (walk₀ i).stretched)) := by
  obtain ⟨hlt, -⟩ := List.getElem?_eq_some_iff.mp hj
  have hlast := Trace.last?_eq h₀ h hi (Nat.lt_of_le_of_lt hij hlt)
  have hmark := (h₀.find?_marks_iff hp.uniqueLabels).mpr ⟨j, hj, rfl⟩
  obtain ⟨haddress, hslack⟩ := h₀.trace.le_of_le hij (Nat.le_of_lt hlt)
  unfold estimate
  rw [h.find?_marks_eq_none hp.uniqueLabels hi hj hij]
  unfold estimateAhead
  rw [hlast, show (p.pass base limits (some layout)).previous = some layout from rfl]
  simp only [Option.bind_eq_bind, Option.bind_some, hmark, exactSub?, if_pos haddress,
    if_pos hslack, Walk.stretched]
  congr 1
  omega

/-! ## Distances -/

/-- A label at the place `j` is within reach of a branch at the place `i`, whatever becomes of the
gaps in between. -/
def Close (walk : Nat → Walk) (i j : Nat) : Prop :=
  (j < i ∧ (walk i).stretched ≤ (walk j).stretched + 125) ∨
    (i ≤ j ∧ (walk j).stretched ≤ (walk i).stretched + 129 ∧
      (walk i).address + ((walk j).stretched - (walk i).stretched) < addressSpace)

/-- A label behind is estimated from its address and from the slack in between. -/
theorem Trace.reaches_behind_iff (h : pass.Trace nodes k walk extent)
    (hunique : UniqueLabels nodes) (hi : i ≤ k) (hj : nodes[j]? = some (.label l)) (hji : j < i) :
    pass.Reaches (walk i) l ↔ (walk i).slack - (walk j).slack ≤ (walk j).address ∧
      (walk i).stretched ≤ (walk j).stretched + 125 := by
  obtain ⟨haddress, hslack⟩ := h.le_of_le (Nat.le_of_lt hji) hi
  unfold Reaches
  rw [h.estimate_behind hunique hi hj hji]
  simp only [exactSub?_eq_some_iff, Walk.stretched]
  constructor
  · rintro ⟨target, ⟨hle, rfl⟩, -, hreach⟩
    omega
  · rintro ⟨hle, hreach⟩
    refine ⟨_, ⟨hle, rfl⟩, ?_, ?_⟩ <;> omega

/-- A label ahead is estimated from the layout before. -/
theorem Trace.reaches_ahead_iff (hp : p.Valid)
    (h₀ : (p.pass base limits previous).Arrival p.nodeList layout walk₀ extent₀)
    (h : (p.pass base limits (some layout)).Trace p.nodeList k walk extent) (hi : i ≤ k)
    (hj : p.nodeList[j]? = some (.label l)) (hij : i ≤ j) :
    (p.pass base limits (some layout)).Reaches (walk i) l ↔
      (walk₀ j).stretched ≤ (walk₀ i).stretched + 129 ∧
        (walk i).address + ((walk₀ j).stretched - (walk₀ i).stretched) < addressSpace := by
  unfold Reaches
  rw [h.estimate_ahead hp h₀ hi hj hij]
  simp only [inSpace?_eq_some_iff, InReach]
  constructor
  · rintro ⟨target, ⟨hlt, rfl⟩, hreach, -⟩
    omega
  · rintro ⟨hreach, hlt⟩
    refine ⟨_, ⟨hlt, rfl⟩, ?_, ?_⟩ <;> omega

/-- Nothing is known about a label ahead that no node places. -/
theorem exists_label_of_reaches (hrelaxing : p.Relaxing base limits n previous) (hp : p.Valid)
    (h : (p.pass base limits previous).Trace p.nodeList k walk extent) (hi : i ≤ k)
    (hr : (p.pass base limits previous).Reaches (walk i) l) :
    ∃ j, p.nodeList[j]? = some (.label l) ∧ (j < i ∨ i ≤ j ∧ previous.isSome) := by
  obtain ⟨target, htarget, -⟩ := hr
  unfold estimate at htarget
  split at htarget
  · rename_i mark hm
    obtain ⟨j, hji, hj, -⟩ := h.exists_of_find?_marks hi hm
    exact ⟨j, hj, .inl hji⟩
  · unfold estimateAhead at htarget
    simp only [Option.bind_eq_bind, Option.bind_eq_some_iff] at htarget
    obtain ⟨_, -, layout, hprevious, mark, hm, -⟩ := htarget
    obtain rfl : previous = some layout := hprevious
    obtain ⟨m, _, walk₀, extent₀, -, h₀⟩ := hrelaxing.exists_arrival
    obtain ⟨j, hj, -⟩ := (h₀.find?_marks_iff hp.uniqueLabels).mp hm
    rcases Nat.lt_or_ge j i with hji | hij
    · exact ⟨j, hj, .inl hji⟩
    · exact ⟨j, hj, .inr ⟨hij, rfl⟩⟩

/-- What a pass makes short is close. -/
theorem Arrival.close_of_reaches (hrelaxing : p.Relaxing base limits n previous) (hp : p.Valid)
    (h : (p.pass base limits previous).Arrival p.nodeList layout walk extent)
    (hi : i ≤ p.nodeList.length) (hr : (p.pass base limits previous).Reaches (walk i) l) :
    ∃ j, p.nodeList[j]? = some (.label l) ∧ Close walk i j := by
  obtain ⟨j, hj, hji | ⟨hij, hsome⟩⟩ := exists_label_of_reaches hrelaxing hp h.trace hi hr
  · obtain ⟨-, hreach⟩ := (h.trace.reaches_behind_iff hp.uniqueLabels hi hj hji).mp hr
    exact ⟨j, hj, .inl ⟨hji, hreach⟩⟩
  · obtain ⟨layout₀, rfl⟩ := Option.isSome_iff_exists.mp hsome
    obtain ⟨m, _, walk₀, extent₀, -, h₀⟩ := hrelaxing.exists_arrival
    obtain ⟨hreach, hspace⟩ := (h.trace.reaches_ahead_iff hp h₀ hi hj hij).mp hr
    obtain ⟨hlt, -⟩ := List.getElem?_eq_some_iff.mp hj
    -- the distance of the layout before is an upper bound
    have hle := h.trace.stretched_le hp h₀ hij (Nat.le_of_lt hlt)
    exact ⟨j, hj, .inr ⟨hij, by omega, by omega⟩⟩

/-- What is close in a layout is taken to be within reach in the next pass, unless the estimate
would be negative. -/
theorem Trace.reaches_of_close (hp : p.Valid)
    (h₀ : (p.pass base limits previous).Arrival p.nodeList layout walk₀ extent₀)
    (h : (p.pass base limits (some layout)).Trace p.nodeList k walk extent) (hi : i ≤ k)
    (hj : p.nodeList[j]? = some (.label l)) (hclose : Close walk₀ i j)
    (hr : ¬ (p.pass base limits (some layout)).Reaches (walk i) l) :
    j < i ∧ (walk j).address < (walk i).slack - (walk j).slack := by
  rcases hclose with ⟨hji, hreach⟩ | ⟨hij, hreach, hspace⟩
  · rw [h.reaches_behind_iff hp.uniqueLabels hi hj hji] at hr
    have hle := h.stretched_le hp h₀ (Nat.le_of_lt hji) hi
    exact ⟨hji, by omega⟩
  · -- an estimate ahead does not grow, as addresses do not go up
    rw [h.reaches_ahead_iff hp h₀ hi hj hij] at hr
    have hle := h.address_le hp h₀ hi
    exact absurd ⟨hreach, by omega⟩ hr

/-- What is close is within reach. -/
theorem Close.inReach (h : pass.Trace nodes k walk extent) (hi : i ≤ k) (hj : j ≤ k)
    (hclose : Close walk i j) : InReach (walk i).address (walk j).address := by
  rcases hclose with ⟨hji, hreach⟩ | ⟨hij, hreach, -⟩
  · obtain ⟨haddress, hslack⟩ := h.le_of_le (Nat.le_of_lt hji) hi
    unfold Walk.stretched at hreach
    constructor <;> omega
  · obtain ⟨haddress, hslack⟩ := h.le_of_le hij hj
    unfold Walk.stretched at hreach
    constructor <;> omega

end Pass

end X86Asm
