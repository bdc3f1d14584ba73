import Mathlib.Tactic.Choose
import X86Asm.Proofs.Layout.Gap

/-!
# The trace of a pass

`Pass.Trace` lists the walks that a pass goes through, one in front of each node, and the extents
that it gives to the nodes. It says where everything is: the placements and marks of a walk are
the addresses and slacks of the walks before it (`Trace.placement`, `Trace.find?_marks_iff`).
-/

namespace X86Asm

variable {pass : Pass} {nodes : List Node} {w w' : Walk} {node : Node} {walk : Nat → Walk}
  {extent : Nat → Extent} {i j k : Nat} {l : Label} {mark : Mark} {layout : Layout}

/-- No label is placed by two nodes. -/
def UniqueLabels (nodes : List Node) : Prop :=
  ∀ (i j : Nat) (l : Label), nodes[i]? = some (.label l) → nodes[j]? = some (.label l) → i = j

namespace Pass

/-- A step of a pass that succeeds has an extent that passes both checks. -/
theorem step_eq_ok :
    pass.step w node = .ok w' ↔ ∃ e, pass.extent w node = .ok e ∧
      pass.checkGrowth w node e.length = .ok () ∧
      pass.checkEnd w.count (w.address + e.length) = .ok () ∧ w' = w.place node e := by
  unfold step
  simp only [bind_eq_ok_iff]
  constructor
  · rintro ⟨e, he, _, hgrowth, _, hend, hw⟩
    cases hw
    exact ⟨e, he, hgrowth, hend, rfl⟩
  · rintro ⟨e, he, hgrowth, hend, rfl⟩
    exact ⟨e, he, (), hgrowth, (), hend, rfl⟩

/-- A node that passes ends within the address space and the limit. -/
theorem checkEnd_eq_ok {index address : Nat} (h : pass.checkEnd index address = .ok ()) :
    address < addressSpace ∧ address - pass.base ≤ pass.maxBytes := by
  unfold checkEnd at h
  split at h
  · cases h
  · split at h
    · cases h
    · omega

/-- The walks in front of the first nodes, and the extents of the nodes that are passed. -/
structure Trace (pass : Pass) (nodes : List Node) (k : Nat) (walk : Nat → Walk)
    (extent : Nat → Extent) : Prop where
  le_length : k ≤ nodes.length
  start : walk 0 = { address := pass.base }
  extent_eq : ∀ i node, i < k → nodes[i]? = some node → pass.extent (walk i) node = .ok (extent i)
  growth : ∀ i node, i < k → nodes[i]? = some node →
    pass.checkGrowth (walk i) node (extent i).length = .ok ()
  ends : ∀ i node, i < k → nodes[i]? = some node →
    pass.checkEnd (walk i).count ((walk i).address + (extent i).length) = .ok ()
  next : ∀ i node, i < k → nodes[i]? = some node → walk (i + 1) = (walk i).place node (extent i)

/-- A pass that gets past some nodes has a trace up to there. -/
theorem exists_trace (hk : k ≤ nodes.length)
    (h : (nodes.take k).foldlM pass.step { address := pass.base } = .ok w) :
    ∃ walk extent, pass.Trace nodes k walk extent ∧ walk k = w := by
  obtain ⟨walk, hstart, hend, hstep⟩ := exists_states_of_foldlM h
  rw [List.length_take_of_le hk] at hend
  -- where there is no node any extent will do
  have hextent : ∀ i, ∃ e, ∀ node, i < k → nodes[i]? = some node →
      pass.extent (walk i) node = .ok e ∧ pass.checkGrowth (walk i) node e.length = .ok () ∧
        pass.checkEnd (walk i).count ((walk i).address + e.length) = .ok () ∧
        walk (i + 1) = (walk i).place node e := by
    intro i
    cases hn : (nodes.take k)[i]? with
    | none =>
      refine ⟨⟨0, 0, 0⟩, fun node hi hn' => ?_⟩
      rw [List.getElem?_take_of_lt hi, hn'] at hn
      cases hn
    | some node =>
      obtain ⟨e, he⟩ := step_eq_ok.mp (hstep i node hn)
      refine ⟨e, fun node' hi hn' => ?_⟩
      rw [List.getElem?_take_of_lt hi, hn'] at hn
      cases hn
      exact he
  choose extent hextent using hextent
  refine ⟨walk, extent, ⟨hk, hstart, ?_, ?_, ?_, ?_⟩, hend⟩
  all_goals
    intro i node hi hn
    obtain ⟨he, hgrowth, hends, hnext⟩ := hextent i node hi hn
    assumption

/-- The trace of a pass that gets past all nodes, and the layout that it arrives at. -/
structure Arrival (pass : Pass) (nodes : List Node) (layout : Layout) (walk : Nat → Walk)
    (extent : Nat → Extent) : Prop where
  trace : pass.Trace nodes nodes.length walk extent
  placed_eq : (walk nodes.length).placed = layout

/-- A pass that succeeds arrives at a layout. -/
theorem exists_arrival (h : pass.run nodes = .ok layout) :
    ∃ walk extent, pass.Arrival nodes layout walk extent := by
  obtain ⟨w, hw, rfl⟩ := map_eq_ok_iff.mp h
  rw [← List.take_length (l := nodes)] at hw
  obtain ⟨walk, extent, htrace, rfl⟩ := exists_trace (Nat.le_refl _) hw
  exact ⟨walk, extent, htrace, rfl⟩

/-- A pass fails as one of its steps does. -/
theorem exists_step_of_error {e : Error} (h : pass.run nodes = .error e) :
    ∃ w node, pass.step w node = .error e := by
  obtain ⟨_, node, _, w, -, -, hstep⟩ := foldlM_eq_error_iff.mp (map_eq_error_iff.mp h)
  exact ⟨w, node, hstep⟩

/-- A pass that fails has a trace up to the node that it fails at. -/
theorem exists_trace_of_error {e : Error} (h : pass.run nodes = .error e) :
    ∃ k node walk extent, nodes[k]? = some node ∧ pass.Trace nodes k walk extent ∧
      (nodes.take k).foldlM pass.step { address := pass.base } = .ok (walk k) ∧
        pass.step (walk k) node = .error e := by
  obtain ⟨before, node, after, w, hnodes, hw, hstep⟩ :=
    foldlM_eq_error_iff.mp (map_eq_error_iff.mp h)
  have hn : nodes[before.length]? = some node := by simp [hnodes]
  have hbefore : before = nodes.take before.length := by simp [hnodes]
  rw [hbefore] at hw
  obtain ⟨hlt, -⟩ := List.getElem?_eq_some_iff.mp hn
  obtain ⟨walk, extent, htrace, rfl⟩ := exists_trace (Nat.le_of_lt hlt) hw
  exact ⟨before.length, node, walk, extent, hn, htrace, hw, hstep⟩

end Pass

/-- The address that the walk would be at if all gaps in front were as wide as they can be. -/
def Walk.stretched (w : Walk) : Nat := w.address + w.slack

namespace Pass.Trace

variable (h : pass.Trace nodes k walk extent)

include h

/-- There is a node in front of every place that a pass has got to. -/
theorem node_eq (hi : i < k) : ∃ node, nodes[i]? = some node :=
  ⟨_, List.getElem?_eq_getElem (Nat.lt_of_lt_of_le hi h.le_length)⟩

/-- The next place is behind the node that is placed. -/
theorem next_eq (hi : i < k) :
    ∃ node, nodes[i]? = some node ∧ walk (i + 1) = (walk i).place node (extent i) := by
  obtain ⟨node, hn⟩ := h.node_eq hi
  exact ⟨node, hn, h.next i node hi hn⟩

/-- The pass goes through the walks. -/
theorem foldlM_eq (hi : i ≤ k) :
    (nodes.take i).foldlM pass.step { address := pass.base } = .ok (walk i) := by
  induction i with
  | zero => exact congrArg _ h.start.symm
  | succ i ih =>
    obtain ⟨node, hn⟩ := h.node_eq hi
    have hstep : pass.step (walk i) node = .ok (walk (i + 1)) :=
      step_eq_ok.mpr ⟨extent i, h.extent_eq i node hi hn, h.growth i node hi hn,
        h.ends i node hi hn, h.next i node hi hn⟩
    rw [List.take_add_one, hn, List.foldlM_append, bind_eq_ok_iff]
    exact ⟨walk i, ih (Nat.le_of_succ_le hi), bind_eq_ok_iff.mpr ⟨_, hstep, rfl⟩⟩

/-- The address goes up by the length of the node. -/
theorem address_succ (hi : i < k) :
    (walk (i + 1)).address = (walk i).address + (extent i).length := by
  obtain ⟨node, -, hnext⟩ := h.next_eq hi
  rw [hnext]
  rfl

/-- The slack goes up by what the gap leaves unused. -/
theorem slack_succ (hi : i < k) :
    (walk (i + 1)).slack = (walk i).slack + ((extent i).capacity - (extent i).padding) := by
  obtain ⟨node, -, hnext⟩ := h.next_eq hi
  rw [hnext]
  rfl

/-- Slack included, the address goes up by the span of the node. -/
theorem stretched_succ (hi : i < k) :
    (walk (i + 1)).stretched = (walk i).stretched + (extent i).span := by
  have := h.address_succ hi
  have := h.slack_succ hi
  rw [Walk.stretched, Walk.stretched, Extent.span]
  omega

/-- A pass starts at its base. -/
theorem address_zero : (walk 0).address = pass.base := by rw [h.start]

/-- A pass starts without slack. -/
theorem slack_zero : (walk 0).slack = 0 := by rw [h.start]

theorem stretched_zero : (walk 0).stretched = pass.base := by rw [h.start]; rfl

/-- Addresses and slacks do not go down. -/
theorem le_of_le (hij : i ≤ j) (hj : j ≤ k) :
    (walk i).address ≤ (walk j).address ∧ (walk i).slack ≤ (walk j).slack := by
  induction j with
  | zero =>
    obtain rfl := Nat.le_zero.mp hij
    exact ⟨Nat.le_refl _, Nat.le_refl _⟩
  | succ j ih =>
    rcases Nat.le_or_eq_of_le_succ hij with hij | rfl
    · obtain ⟨haddress, hslack⟩ := ih hij (Nat.le_of_succ_le hj)
      have := h.address_succ hj
      have := h.slack_succ hj
      omega
    · exact ⟨Nat.le_refl _, Nat.le_refl _⟩

/-- No node is below the base. -/
theorem base_le (hi : i ≤ k) : pass.base ≤ (walk i).address :=
  h.address_zero ▸ (h.le_of_le (Nat.zero_le i) hi).1

/-- Every address on the way is one of the address space. -/
theorem address_lt (hbase : pass.base < addressSpace) (hi : i ≤ k) :
    (walk i).address < addressSpace := by
  cases i with
  | zero => exact h.address_zero.symm ▸ hbase
  | succ i =>
    obtain ⟨node, hn⟩ := h.node_eq hi
    rw [h.address_succ hi]
    exact (checkEnd_eq_ok (h.ends i node hi hn)).1

/-- A pass has counted the nodes that it has placed. -/
theorem count_eq (hi : i ≤ k) : (walk i).count = i := by
  induction i with
  | zero => rw [h.start]; rfl
  | succ i ih =>
    obtain ⟨node, -, hnext⟩ := h.next_eq hi
    rw [hnext, Walk.count, Walk.place, Array.size_push]
    exact congrArg (· + 1) (ih (Nat.le_of_succ_le hi))

/-- A node that is passed is placed where the walk was in front of it. -/
theorem placement (hij : i < j) (hj : j ≤ k) :
    (walk j).placed.placements[i]? = some
      ⟨(walk i).address, (extent i).length, (extent i).padding, (walk i).slack⟩ := by
  induction j with
  | zero => exact absurd hij (Nat.not_lt_zero i)
  | succ j ih =>
    obtain ⟨node, -, hnext⟩ := h.next_eq hj
    have hsize : (walk j).placed.placements.size = j := h.count_eq (Nat.le_of_succ_le hj)
    rw [hnext, Walk.place]
    simp only [Array.getElem?_push, hsize]
    rcases Nat.lt_succ_iff_lt_or_eq.mp hij with hij | rfl
    · rw [if_neg (Nat.ne_of_lt hij)]
      exact ih hij (Nat.le_of_succ_le hj)
    · rw [if_pos rfl]

/-- A label has the mark of a node that places it. -/
theorem exists_of_find?_marks (hj : j ≤ k) (hm : (walk j).placed.marks.find? l = some mark) :
    ∃ i, i < j ∧ nodes[i]? = some (.label l) ∧ mark = ⟨(walk i).address, (walk i).slack⟩ := by
  induction j with
  | zero => simp [h.start] at hm
  | succ j ih =>
    obtain ⟨node, hn, hnext⟩ := h.next_eq hj
    -- a mark from before is that of an earlier node
    have hrest (hm : (walk j).placed.marks.find? l = some mark) :
        ∃ i, i < j + 1 ∧ nodes[i]? = some (.label l) ∧
          mark = ⟨(walk i).address, (walk i).slack⟩ := by
      obtain ⟨i, hi, hni, hmark⟩ := ih (Nat.le_of_succ_le hj) hm
      exact ⟨i, Nat.lt_succ_of_lt hi, hni, hmark⟩
    rw [hnext, Walk.place] at hm
    cases node with
    | label l' =>
      simp only [Walk.marksAfter, LabelTable.find?_insert] at hm
      split at hm
      · rename_i hl
        cases hm
        exact ⟨j, Nat.lt_succ_self j, hl ▸ hn, rfl⟩
      · exact hrest hm
    | _ => exact hrest hm

/-- A label that is placed has a mark from then on. -/
theorem find?_marks_isSome (hij : i < j) (hj : j ≤ k) (hi : nodes[i]? = some (.label l)) :
    ∃ mark, (walk j).placed.marks.find? l = some mark := by
  induction j with
  | zero => exact absurd hij (Nat.not_lt_zero i)
  | succ j ih =>
    obtain ⟨node, hn, hnext⟩ := h.next_eq hj
    rw [hnext, Walk.place]
    rcases Nat.lt_succ_iff_lt_or_eq.mp hij with hij | rfl
    · obtain ⟨mark, hm⟩ := ih hij (Nat.le_of_succ_le hj)
      cases node with
      | label l' =>
        simp only [Walk.marksAfter, LabelTable.find?_insert]
        split
        · exact ⟨_, rfl⟩
        · exact ⟨mark, hm⟩
      | _ => exact ⟨mark, hm⟩
    · rw [hi] at hn
      cases hn
      simp [Walk.marksAfter, LabelTable.find?_insert]

/-- If no label is placed twice, the marks are the walks in front of the nodes that place them. -/
theorem find?_marks_iff (hunique : UniqueLabels nodes) (hj : j ≤ k) :
    (walk j).placed.marks.find? l = some mark ↔
      ∃ i, i < j ∧ nodes[i]? = some (.label l) ∧ mark = ⟨(walk i).address, (walk i).slack⟩ := by
  constructor
  · exact h.exists_of_find?_marks hj
  · rintro ⟨i, hi, hni, rfl⟩
    obtain ⟨mark, hm⟩ := h.find?_marks_isSome hi hj hni
    obtain ⟨i', -, hni', rfl⟩ := h.exists_of_find?_marks hj hm
    -- the label has a mark, which comes from some node, and there is only one
    obtain rfl := hunique i i' l hni hni'
    exact hm

end Pass.Trace

namespace Pass.Arrival

variable (h : pass.Arrival nodes layout walk extent)

include h

/-- Every node has a placement. -/
theorem size_placements : layout.placements.size = nodes.length :=
  h.placed_eq ▸ h.trace.count_eq (Nat.le_refl _)

/-- The placement of a node is where the pass has put it. -/
theorem placement (hi : i < nodes.length) :
    layout.placements[i]? = some
      ⟨(walk i).address, (extent i).length, (extent i).padding, (walk i).slack⟩ :=
  h.placed_eq ▸ h.trace.placement hi (Nat.le_refl _)

/-- The placement that is found for a node is where the pass has put it. -/
theorem place_eq {place : Placement} (hn : nodes[i]? = some node)
    (hplace : layout.placements[i]? = some place) :
    place = ⟨(walk i).address, (extent i).length, (extent i).padding, (walk i).slack⟩ := by
  obtain ⟨hlt, -⟩ := List.getElem?_eq_some_iff.mp hn
  exact Option.some.inj (hplace.symm.trans (h.placement hlt))

/-- A label has the mark of the place of its node. -/
theorem find?_marks_iff (hunique : UniqueLabels nodes) :
    layout.marks.find? l = some mark ↔
      ∃ i, nodes[i]? = some (.label l) ∧ mark = ⟨(walk i).address, (walk i).slack⟩ := by
  rw [← h.placed_eq, h.trace.find?_marks_iff hunique (Nat.le_refl _)]
  refine exists_congr fun i => ⟨fun ⟨_, hi⟩ => hi, fun hi => ⟨?_, hi⟩⟩
  exact (List.getElem?_eq_some_iff.mp hi.1).1

/-- The addresses of the labels are those of the nodes that place them. -/
theorem find?_addresses_iff (hbase : pass.base < addressSpace) (hunique : UniqueLabels nodes)
    (l : Label) (target : UInt64) :
    layout.addresses.find? l = some target ↔
      ∃ i, nodes[i]? = some (.label l) ∧ target.toNat = (walk i).address := by
  rw [Layout.addresses, LabelTable.find?_map, Option.map_eq_some_iff]
  constructor
  · rintro ⟨mark, hm, rfl⟩
    obtain ⟨i, hni, rfl⟩ := (h.find?_marks_iff hunique).mp hm
    obtain ⟨hlt, -⟩ := List.getElem?_eq_some_iff.mp hni
    exact ⟨i, hni, UInt64.toNat_ofNat_of_lt' (h.trace.address_lt hbase (Nat.le_of_lt hlt))⟩
  · rintro ⟨i, hni, haddress⟩
    refine ⟨_, (h.find?_marks_iff hunique).mpr ⟨i, hni, rfl⟩, ?_⟩
    rw [← haddress, UInt64.ofNat_toNat]

/-- A label has the address of the node that places it. -/
theorem find?_addresses_eq (hbase : pass.base < addressSpace) (hunique : UniqueLabels nodes)
    (hi : nodes[i]? = some (.label l)) :
    layout.addresses.find? l = some (UInt64.ofNat (walk i).address) := by
  obtain ⟨hlt, -⟩ := List.getElem?_eq_some_iff.mp hi
  have haddress := UInt64.toNat_ofNat_of_lt' (h.trace.address_lt hbase (Nat.le_of_lt hlt))
  exact (h.find?_addresses_iff hbase hunique _ _).mpr ⟨i, hi, haddress⟩

end Pass.Arrival

end X86Asm
