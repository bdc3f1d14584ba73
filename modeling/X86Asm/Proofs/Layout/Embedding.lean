import X86Asm.Proofs.Layout.Consistent

/-!
# Layouts of parts

If the nodes of a program stand in a larger one, what the larger one chooses to be short is a choice
for the part. Consistent choices of the whole are consistent for the parts (`Embeds.consistent`),
and those of two parts make up one of the whole (`Joins.consistent`), as no jump leaves its part. As
relaxation arrives at the least consistent choice, the whole has the choices of its parts
(`Joins.agree`).

So if a part starts at the address that it has in the whole, its nodes have the addresses and the
extents that they have there (`Embeds.samePlaces`), however many passes either of the relaxations
makes.
-/

namespace X86Asm

variable {part whole first second : Program} {base base' : UInt64} {limits limits' : Limits}
  {previous previous' : Option Layout} {layout layout' : Layout} {walk walk' : Nat → Walk}
  {extent extent' : Nat → Extent} {node : Node} {instr : Instruction} {l : Label}
  {short short' : Nat → Bool} {d i j k : Nat}

/-- The first places of a part are those of the whole from the index `d` on. -/
structure SamePlaces (length d : Nat) (walk walk' : Nat → Walk) (extent extent' : Nat → Extent) :
    Prop where
  address : ∀ i ≤ length, (walk' (d + i)).address = (walk i).address
  extent : ∀ i < length, extent' (d + i) = extent i

namespace Program

/-! ## Parts -/

/-- The nodes of `part` stand in `whole` from the index `d` on, and start sections like theirs. -/
structure Embeds (part whole : Program) (d : Nat) : Prop where
  mode_eq : whole.mode = part.mode
  node : ∀ {i node}, part.nodeList[i]? = some node → whole.nodeList[d + i]? = some node
  sections : ∀ s, .sectionStart s ∈ part.nodeList →
    whole.sectionAlignment? s = part.sectionAlignment? s ∧
      whole.sectionFlags? s = part.sectionFlags? s

/-- The labels that nodes refer to are placed by nodes. -/
def Closed (p : Program) : Prop :=
  ∀ node ∈ p.nodeList, ∀ l ∈ node.references, ∃ j : Nat, p.nodeList[j]? = some (.label l)

namespace Embeds

variable (h : part.Embeds whole d)

include h

/-- The gaps of a part are gaps of the whole with the same alignments. -/
theorem gap?_eq (hn : node ∈ part.nodeList) : whole.gap? node = part.gap? node := by
  cases node with
  | sectionStart s => rw [gap?, gap?, (h.sections s hn).1]
  | _ => rfl

/-- A node of a part is as wide in the whole. -/
theorem spanIf_eq (hn : node ∈ part.nodeList) (short : Bool) :
    whole.spanIf short node = part.spanIf short node := by
  unfold spanIf gapCapacity
  rw [h.mode_eq, h.gap?_eq hn]

/-- Nodes of a part are as far apart in the whole. -/
theorem distance_eq (hj : j ≤ part.nodeList.length) :
    whole.distance short (d + i) (d + j) = part.distance (fun k => short (d + k)) i j := by
  unfold distance
  rw [Nat.add_comm d i, Nat.add_comm d j, ← Finset.sum_Ico_add]
  refine Finset.sum_congr rfl fun k hk => ?_
  have hlt := Nat.lt_of_lt_of_le (Finset.mem_Ico.mp hk).2 hj
  have hn := List.getElem?_eq_getElem hlt
  rw [h.node hn, hn]
  exact h.spanIf_eq (List.mem_of_getElem? hn) _

/-- A jump of a part goes to the same label in the whole. -/
theorem jumpsTo (hjump : part.JumpsTo i j instr l) : whole.JumpsTo (d + i) (d + j) instr l :=
  ⟨h.node hjump.node, hjump.target, h.node hjump.label⟩

/-- A jump of a part fits in the whole if it fits in the part. -/
theorem fits_iff (hjump : part.JumpsTo i j instr l) :
    whole.Fits short (d + i) (d + j) instr ↔ part.Fits (fun k => short (d + k)) i j instr := by
  unfold Fits
  rw [Nat.add_assoc d i, Nat.add_assoc d j, h.distance_eq (Nat.le_of_lt hjump.lt.1),
    h.distance_eq (Nat.le_of_lt hjump.lt.2), h.mode_eq]
  simp only [Nat.add_lt_add_iff_left]

/-- A consistent choice of the whole is one of each part. -/
theorem consistent (hshort : whole.Consistent short) :
    part.Consistent fun i => short (d + i) :=
  fun _ _ _ _ hjump => (hshort (h.jumpsTo hjump)).trans (h.fits_iff hjump)

/-- The labels of the jumps of a part are within the part. -/
theorem exists_jumpsTo (hwhole : whole.Valid) (hclosed : part.Closed)
    (hi : i < part.nodeList.length) (hjump : whole.JumpsTo (d + i) j instr l) :
    ∃ j', j = d + j' ∧ part.JumpsTo i j' instr l := by
  have hn := List.getElem?_eq_getElem hi
  have hsame := (h.node hn).symm.trans hjump.node
  rw [hsame] at hn
  obtain ⟨b, ht, -, rfl, -⟩ := Instruction.template_of_jumpTarget hjump.target part.mode
  have hreference : b.label ∈ (Node.instruction instr).references := by
    rw [Node.references, Instruction.label?_of_template ht]
    exact List.mem_singleton_self _
  obtain ⟨j', hj'⟩ := hclosed _ (List.mem_of_getElem? hn) _ hreference
  exact ⟨j', hwhole.label_unique hjump.label (h.node hj'), hn, hjump.target, hj'⟩

/-- In a closed part a choice that is consistent there is right about the jumps of the whole. -/
theorem short_iff_fits (hwhole : whole.Valid) (hclosed : part.Closed)
    (hshort : part.Consistent fun k => short (d + k)) (hi : i < part.nodeList.length)
    (hjump : whole.JumpsTo (d + i) j instr l) :
    short (d + i) ↔ whole.Fits short (d + i) j instr := by
  obtain ⟨j', rfl, hjump'⟩ := h.exists_jumpsTo hwhole hclosed hi hjump
  exact (hshort hjump').trans (h.fits_iff hjump').symm

/-- A choice with no more short jumps in the whole has no more of them in a part. -/
theorem within (hshort : whole.Within short short') :
    part.Within (fun i => short (d + i)) fun i => short' (d + i) :=
  fun i instr l hn hl => hshort (d + i) instr l (h.node hn) hl

section

variable (hp : part.Valid) (hp' : whole.Valid)
  (hpart : (part.pass base limits previous).Arrival part.nodeList layout walk extent)
  (hwhole : (whole.pass base' limits' previous').Arrival whole.nodeList layout' walk' extent')
  (hagree : part.Agree layout.isShort fun i => layout'.isShort (d + i))

include hp hp' hpart hwhole hagree

/-- If a part chooses as the whole does, a node has the extent that it has in the whole if it has
the address. -/
theorem extent_eq (hi : i < part.nodeList.length)
    (haddress : (walk' (d + i)).address = (walk i).address) : extent' (d + i) = extent i := by
  obtain ⟨node, hn⟩ := hpart.trace.node_eq hi
  have hmem := List.mem_of_getElem? hn
  have hn' := h.node hn
  obtain ⟨hlt', -⟩ := List.getElem?_eq_some_iff.mp hn'
  have he := hpart.trace.extent_eq i node hi hn
  have he' := hwhole.trace.extent_eq (d + i) node hlt' hn'
  cases hg : part.gap? node with
  | some alignment =>
    rw [extent_of_gap hg] at he
    rw [extent_of_gap ((h.gap?_eq hmem).trans hg), haddress, he] at he'
    exact (Except.ok.inj he').symm
  | none =>
    have hg' := (h.gap?_eq hmem).trans hg
    refine Pass.extent_eq_of_length hg he' he ?_
    rw [← Pass.span_of_not_gap hg he, ← Pass.span_of_not_gap hg' he',
      hpart.span_eq_spanIf hp hn, hwhole.span_eq_spanIf hp' hn', h.spanIf_eq hmem]
    -- the choices are the same for jumps, and do not matter for other nodes
    refine Nat.le_antisymm (spanIf_le fun hjump => ?_) (spanIf_le fun hjump => ?_)
    all_goals obtain ⟨instr, l, rfl, hl⟩ := Node.isJump_eq_true hjump
    · exact hagree.1 i instr l hn hl
    · exact hagree.2 i instr l hn hl

/-- So if the part starts where it stands in the whole, all its nodes are where they are there. -/
theorem samePlaces (hstart : (walk' d).address = base.toNat) :
    SamePlaces part.nodeList.length d walk walk' extent extent' := by
  have haddress : ∀ i ≤ part.nodeList.length, (walk' (d + i)).address = (walk i).address := by
    intro i hi
    induction i with
    | zero => exact hstart.trans hpart.trace.address_zero.symm
    | succ i ih =>
      have hprev := ih (Nat.le_of_succ_le hi)
      obtain ⟨node, hn⟩ := hpart.trace.node_eq hi
      obtain ⟨hlt', -⟩ := List.getElem?_eq_some_iff.mp (h.node hn)
      rw [← Nat.add_assoc, hwhole.trace.address_succ hlt', hpart.trace.address_succ hi, hprev,
        h.extent_eq hp hp' hpart hwhole hagree hi hprev]
  refine ⟨haddress, fun i hi => ?_⟩
  exact h.extent_eq hp hp' hpart hwhole hagree hi (haddress i (Nat.le_of_lt hi))

end

end Embeds

/-! ## Two parts -/

/-- The nodes of `whole` are those of `first` and behind them those of `second`, and start sections
like theirs. -/
structure Joins (first second whole : Program) : Prop where
  nodeList_eq : whole.nodeList = first.nodeList ++ second.nodeList
  mode_eq : whole.mode = first.mode ∧ whole.mode = second.mode
  sections : ∀ p ∈ [first, second], ∀ s, .sectionStart s ∈ p.nodeList →
    whole.sectionAlignment? s = p.sectionAlignment? s ∧ whole.sectionFlags? s = p.sectionFlags? s

namespace Joins

variable (h : Joins first second whole)

include h

/-- The first part stands at the start of the whole. -/
theorem embeds_first : first.Embeds whole 0 where
  mode_eq := h.mode_eq.1
  node hn := by
    obtain ⟨hlt, -⟩ := List.getElem?_eq_some_iff.mp hn
    rw [h.nodeList_eq, Nat.zero_add, List.getElem?_append_left hlt, hn]
  sections := h.sections first (List.mem_cons_self ..)

/-- The second part stands behind the first. -/
theorem embeds_second : second.Embeds whole first.nodeList.length where
  mode_eq := h.mode_eq.2
  node hn := by
    rw [h.nodeList_eq, List.getElem?_append_right (Nat.le_add_right ..), Nat.add_sub_cancel_left,
      hn]
  sections := h.sections second (List.mem_cons_of_mem _ (List.mem_cons_self ..))

/-- Every place of the whole is one of a part. -/
theorem exists_place (hi : i < whole.nodeList.length) :
    i < first.nodeList.length ∨
      ∃ k, i = first.nodeList.length + k ∧ k < second.nodeList.length := by
  rw [h.nodeList_eq, List.length_append] at hi
  rcases Nat.lt_or_ge i first.nodeList.length with hlt | hge
  · exact .inl hlt
  · exact .inr ⟨i - first.nodeList.length, by omega, by omega⟩

/-- Consistent choices of closed parts are one of the whole. -/
theorem consistent (hp : whole.Valid) (hfirst : first.Closed) (hsecond : second.Closed)
    (hshort : first.Consistent fun k => short (0 + k))
    (hshort' : second.Consistent fun k => short (first.nodeList.length + k)) :
    whole.Consistent short := by
  intro i j instr l hjump
  rcases h.exists_place hjump.lt.1 with hi | ⟨k, rfl, hk⟩
  · rw [← Nat.zero_add i] at hjump ⊢
    exact h.embeds_first.short_iff_fits hp hfirst hshort hi hjump
  · exact h.embeds_second.short_iff_fits hp hsecond hshort' hk hjump

/-! ### Room -/

/-- The capacity of the whole is that of the two parts together. -/
theorem capacity_eq : whole.capacity = first.capacity + second.capacity := by
  have hpart {part : Program} {d : Nat} (hembeds : part.Embeds whole d) :
      part.nodeList.map whole.gapCapacity = part.nodeList.map part.gapCapacity := by
    refine List.map_congr_left fun node hn => ?_
    rw [gapCapacity, gapCapacity, hembeds.gap?_eq hn]
  unfold capacity
  rw [h.nodeList_eq, List.map_append, List.sum_append, hpart h.embeds_first,
    hpart h.embeds_second]

/-- The whole takes at most as many bytes as the two parts together. -/
theorem widest_eq : whole.widest = first.widest + second.widest := by
  unfold widest
  rw [h.nodeList_eq, List.map_append, List.sum_append, ← h.mode_eq.1, ← h.mode_eq.2]

/-- Where there is room for the whole there is room for the first part. -/
theorem room_first (hroom : whole.Room base) : first.Room base := by
  have hbelow := hroom.below
  have habove := hroom.above
  rw [h.capacity_eq] at hbelow habove
  rw [h.widest_eq] at habove
  constructor <;> omega

/-- There is room for the second part behind the first. -/
theorem room_second (hroom : whole.Room base) (hle : base.toNat ≤ base'.toNat)
    (hle' : base'.toNat ≤ base.toNat + (first.widest + first.capacity)) : second.Room base' := by
  have hbelow := hroom.below
  have habove := hroom.above
  rw [h.capacity_eq] at hbelow habove
  rw [h.widest_eq] at habove
  constructor <;> omega

end Joins

section

variable {base₂ : UInt64} {layout₁ layout₂ : Layout} {walk₁ walk₂ : Nat → Walk}
  {extent₁ extent₂ : Nat → Extent} (h : Joins first second whole) (hp₁ : first.Valid)
  (hp₂ : second.Valid) (hp : whole.Valid) (hclosed₁ : first.Closed) (hclosed₂ : second.Closed)
  (hroom : whole.Room base) (hfirst : first.Settles base layout₁ walk₁ extent₁)
  (hsecond : second.Settles base₂ layout₂ walk₂ extent₂)
  (hwhole : whole.Settles base layout walk extent)

include h hp₁ hp₂ hp hclosed₁ hclosed₂ hroom hfirst hsecond hwhole

/-- The whole chooses as its parts do. -/
theorem Joins.agree (hroom₂ : second.Room base₂) :
    (first.Agree layout₁.isShort fun i => layout.isShort (0 + i)) ∧
      second.Agree layout₂.isShort fun i => layout.isShort (first.nodeList.length + i) := by
  have hconsistent := hwhole.consistent hp hroom
  -- the choices of the parts, one behind the other
  let joined : Nat → Bool := fun i =>
    if i < first.nodeList.length then layout₁.isShort i
    else layout₂.isShort (i - first.nodeList.length)
  have hjoined₁ (k : Nat) (hk : k < first.nodeList.length) :
      joined (0 + k) = layout₁.isShort k := by
    rw [Nat.zero_add]
    exact if_pos hk
  have hjoined₂ (k : Nat) : joined (first.nodeList.length + k) = layout₂.isShort k := by
    show (if _ then _ else layout₂.isShort _) = _
    rw [if_neg (by omega), Nat.add_sub_cancel_left]
  have hleast : whole.Within layout.isShort joined := by
    refine hwhole.within hp (h.consistent hp hclosed₁ hclosed₂ ?_ ?_)
    · exact (hfirst.consistent hp₁ (h.room_first hroom)).congr fun k hk => (hjoined₁ k hk).symm
    · exact (hsecond.consistent hp₂ hroom₂).congr fun k _ => (hjoined₂ k).symm
  refine ⟨⟨hfirst.within hp₁ (h.embeds_first.consistent hconsistent), ?_⟩,
    hsecond.within hp₂ (h.embeds_second.consistent hconsistent), ?_⟩
  · intro i instr l hn hl hi
    obtain ⟨hlt, -⟩ := List.getElem?_eq_some_iff.mp hn
    rw [← hjoined₁ i hlt]
    exact h.embeds_first.within hleast i instr l hn hl hi
  · intro i instr l hn hl hi
    rw [← hjoined₂ i]
    exact h.embeds_second.within hleast i instr l hn hl hi

/-- If the second part starts where the first one ends, the places of both are those of the
whole. -/
theorem Joins.samePlaces (hbase₂ : (walk₁ first.nodeList.length).address = base₂.toNat) :
    SamePlaces first.nodeList.length 0 walk₁ walk extent₁ extent ∧
      SamePlaces second.nodeList.length first.nodeList.length walk₂ walk extent₂ extent := by
  have hroom₂ : second.Room base₂ := by
    obtain ⟨-, harrival, -⟩ := hfirst
    have hlow := harrival.trace.base_le (Nat.le_refl _)
    have hhigh := harrival.trace.stretched_le_end hp₁ (Nat.le_refl _)
    unfold Walk.stretched at hhigh
    exact h.room_second hroom (hbase₂ ▸ hlow) (by omega)
  obtain ⟨hagree₁, hagree₂⟩ :=
    h.agree hp₁ hp₂ hp hclosed₁ hclosed₂ hroom hfirst hsecond hwhole hroom₂
  obtain ⟨-, hfirst, -⟩ := hfirst
  obtain ⟨-, hsecond, -⟩ := hsecond
  obtain ⟨-, hwhole, -⟩ := hwhole
  have hsame₁ := h.embeds_first.samePlaces hp₁ hp hfirst hwhole hagree₁ hwhole.trace.address_zero
  have hend := hsame₁.address _ (Nat.le_refl _)
  rw [Nat.zero_add, hbase₂] at hend
  exact ⟨hsame₁, h.embeds_second.samePlaces hp₂ hp hsecond hwhole hagree₂ hend⟩

end

end Program

end X86Asm
