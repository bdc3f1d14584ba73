import X86Asm.Proofs.Image.Consistency
import X86Asm.Proofs.Image.Divergence
import X86Asm.Proofs.Layout.BranchForm

/-!
# Which jumps are short

The form of each jump of an image follows from the bytes of the image: a jump is short exactly if
the bytes between it and its label leave the label within reach, where gaps count as wide as they
could be and a jump ahead counts as near (`Assembler.assemble_branchForm`).
-/

namespace X86Asm

variable {p : Program} {base : UInt64} {limits : Limits} {image : Image} {n : Nat}
  {previous : Option Layout} {layout : Layout} {pieces : List Piece} {walk : Nat → Walk}
  {extent : Nat → Extent} {node : Node} {l : Label} {instr : Instruction} {i j k : Nat}

namespace Program

/-- The bytes of the nodes of the program, a chunk for each. -/
def chunks (p : Program) (base : UInt64) (limits : Limits) : Except Error (List (List UInt8)) := do
  let layout ← (p.relax base limits).1
  let pieces ← Blueprint.pieces ⟨p, base, layout.addresses⟩ 0
    (p.nodeList.zip layout.placements.toList)
  return pieces.map Piece.bytes

/-- How many bytes the node with an index could take: as many as it does take, or as could be needed
if it is a gap. -/
def spanAt (p : Program) (chunks : List (List UInt8)) (k : Nat) : Nat :=
  match p.nodeList[k]?.bind p.gap? with
  | some alignment => alignment.toNat - 1
  | none => (chunks[k]?.getD []).length

/-- How many bytes the nodes strictly between two could take. -/
def between (p : Program) (chunks : List (List UInt8)) (i j : Nat) : Nat :=
  ∑ k ∈ Finset.Ico (i + 1) j, p.spanAt chunks k

end Program

/-! ## Sums over an image -/

/-- The chunks are the bytes of the pieces that the image is made of. -/
theorem Assembly.chunks_eq (h : Assembly p base limits image n previous layout pieces) :
    p.chunks base limits = .ok (pieces.map Piece.bytes) := by
  unfold Program.chunks
  rw [h.relaxing.relax_of_settled h.lt_maxPasses h.run_eq h.settled]
  exact bind_eq_ok_iff.mpr ⟨layout, rfl, bind_eq_ok_iff.mpr ⟨pieces, h.pieces_eq, rfl⟩⟩

/-- Every node has a chunk, which is as long as the layout has the node. -/
theorem Assembly.exists_chunk (h : Assembly p base limits image n previous layout pieces)
    (harrival : (p.pass base limits previous).Arrival p.nodeList layout walk extent)
    (hn : p.nodeList[k]? = some node) :
    ∃ chunk, (pieces.map Piece.bytes)[k]? = some chunk ∧ chunk.length = (extent k).length := by
  obtain ⟨piece, hpiece, hlength, -⟩ := (h.piece harrival).2 k node hn
  exact ⟨piece.bytes, by rw [List.getElem?_map, hpiece]; rfl, hlength⟩

namespace Pass

section

variable (hp : p.Valid) (h : (p.pass base limits previous).Arrival p.nodeList layout walk extent)

include hp h

/-- How wide a node could be is read off its chunk. -/
theorem Arrival.span_eq {chunks : List (List UInt8)} (hn : p.nodeList[k]? = some node)
    {chunk : List UInt8} (hchunk : chunks[k]? = some chunk)
    (hlength : chunk.length = (extent k).length) :
    (extent k).span = p.spanAt chunks k := by
  obtain ⟨hlt, -⟩ := List.getElem?_eq_some_iff.mp hn
  have he := h.trace.extent_eq k node hlt hn
  rw [Program.spanAt, hn, hchunk, Option.bind_some, Option.getD_some]
  cases hg : p.gap? node with
  | none => exact (span_of_not_gap hg he).trans hlength.symm
  | some alignment =>
    rw [Program.extent_of_gap hg] at he
    exact gapExtent_span (hp.gap_pos hn hg) he

/-- The distance of two nodes is the sum of what is between them. -/
theorem Arrival.stretched_eq_between {chunks : List (List UInt8)}
    (hchunks : ∀ k node, p.nodeList[k]? = some node →
      ∃ chunk, chunks[k]? = some chunk ∧ chunk.length = (extent k).length)
    (hij : i < j) (hj : j ≤ p.nodeList.length) :
    (walk j).stretched = (walk (i + 1)).stretched + p.between chunks i j := by
  rw [h.trace.stretched_eq_sum (i := i + 1) hij hj, Program.between]
  refine congrArg _ (Finset.sum_congr rfl fun k hk => ?_)
  obtain ⟨node, hn⟩ := h.trace.node_eq (Nat.lt_of_lt_of_le (Finset.mem_Ico.mp hk).2 hj)
  obtain ⟨chunk, hchunk, hlength⟩ := hchunks k node hn
  exact h.span_eq hp hn hchunk hlength

/-- Without gaps in between the slack stays the same. -/
theorem Arrival.slack_eq (hij : i ≤ j) (hj : j ≤ p.nodeList.length)
    (hgaps : ∀ k node, i ≤ k → k < j → p.nodeList[k]? = some node → p.gapCapacity node = 0) :
    (walk j).slack = (walk i).slack := by
  induction j, hij using Nat.le_induction with
  | base => rfl
  | succ j hij ih =>
    obtain ⟨node, hn⟩ := h.trace.node_eq hj
    obtain ⟨-, hslack⟩ := span_le_of_extent hp hn rfl (h.trace.extent_eq j node hj hn)
    have hnone := hgaps j node hij (Nat.lt_succ_self j) hn
    have hprev := ih (Nat.le_of_succ_le hj) fun k node hk hlt hn =>
      hgaps k node hk (Nat.lt_succ_of_lt hlt) hn
    rw [h.trace.slack_succ hj]
    omega

/-- Without gaps in between a jump whose label is too far away if gaps are as wide as they can be
is too far away from it. -/
theorem Arrival.not_inReach (hn : p.nodeList[i]? = some (.instruction instr))
    (hj : p.nodeList[j]? = some (.label l))
    (hgaps : ∀ k node, (j < k ∧ k < i) ∨ (i < k ∧ k < j) → p.nodeList[k]? = some node →
      p.gapCapacity node = 0)
    (hfar : (walk j).stretched + 125 < (walk i).stretched ∨
      (walk i).stretched + 129 < (walk j).stretched) :
    ¬ InReach (walk i).address (walk j).address := by
  obtain ⟨hlt, -⟩ := List.getElem?_eq_some_iff.mp hn
  obtain ⟨hjlt, -⟩ := List.getElem?_eq_some_iff.mp hj
  -- no gap lies in between, so the slack is the same at both ends
  have hslack : (walk j).slack = (walk i).slack := by
    rcases Nat.lt_or_ge i j with hij | hji
    · refine h.slack_eq hp (Nat.le_of_lt hij) (Nat.le_of_lt hjlt) fun k node hik hkj hk => ?_
      rcases Nat.lt_or_eq_of_le hik with hik | rfl
      · exact hgaps k node (.inr ⟨hik, hkj⟩) hk
      · cases hn.symm.trans hk
        rfl
    · refine (h.slack_eq hp hji (Nat.le_of_lt hlt) fun k node hjk hki hk => ?_).symm
      rcases Nat.lt_or_eq_of_le hjk with hjk | rfl
      · exact hgaps k node (.inl ⟨hjk, hki⟩) hk
      · cases hj.symm.trans hk
        rfl
  unfold Walk.stretched at hfar
  rintro ⟨hahead, hbehind⟩
  omega

end

end Pass

/-! ## The rule -/

/-- The form of the jump with an index by the bytes between it and its label, and what becomes of
its reach. -/
structure Program.BranchForm (p : Program) (chunks : List (List UInt8)) (address : Nat → Nat)
    (i j : Nat) (near : Nat) (chunk : List UInt8) : Prop where
  length_eq : chunk.length = 2 ∨ chunk.length = near
  behind : j < i → (chunk.length = 2 ↔ p.between chunks j i + 2 ≤ 127)
  ahead : i < j → (chunk.length = 2 ↔ p.between chunks i j + near - 2 ≤ 127)
  far : chunk.length ≠ 2 →
    (∀ k node, (j < k ∧ k < i) ∨ (i < k ∧ k < j) → p.nodeList[k]? = some node →
      p.gapCapacity node = 0) → ¬ InReach (address i) (address j)

/-- The rule holds of every jump of an image to a bound label. -/
theorem Assembly.branchForm (h : Assembly p base limits image n previous layout pieces)
    (hp : p.Valid) (hroom : p.Room base)
    (harrival : (p.pass base limits previous).Arrival p.nodeList layout walk extent)
    (hn : p.nodeList[i]? = some (.instruction instr)) (hl : instr.jumpTarget? = some l)
    {chunk : List UInt8} (hchunk : (pieces.map Piece.bytes)[i]? = some chunk)
    (hj : p.nodeList[j]? = some (.label l)) :
    p.BranchForm (pieces.map Piece.bytes) (fun k => (walk k).address) i j
      (instr.nearLength p.mode) chunk := by
  obtain ⟨hlt, -⟩ := List.getElem?_eq_some_iff.mp hn
  obtain ⟨hjlt, -⟩ := List.getElem?_eq_some_iff.mp hj
  have hlong := instr.two_lt_nearLength p.mode
  have hlength : chunk.length = (extent i).length := by
    obtain ⟨chunk', hchunk', hlength⟩ := h.exists_chunk harrival hn
    obtain rfl := Option.some.inj (hchunk.symm.trans hchunk')
    exact hlength
  have hform : (extent i).length = 2 ∨ (extent i).length = instr.nearLength p.mode := by
    rcases harrival.length_jump hn hl with ⟨-, hform⟩ | ⟨-, hform⟩
    · exact .inl hform
    · exact .inr hform
  have hbehind (hji : j < i) := harrival.short_behind_iff hp hroom hn hl hj hji
  have hahead (hij : i < j) :=
    harrival.short_ahead_iff hp hroom hn hl hj h.relaxing h.settled hij
  have hstep := harrival.trace.stretched_succ_jump hlt hn
  have hchunks (k : Nat) (node : Node) (hn : p.nodeList[k]? = some node) :=
    h.exists_chunk harrival hn
  rw [← hlength] at hform hbehind hahead hstep
  refine ⟨hform, fun hji => ?_, fun hij => ?_, fun hnear hgaps => ?_⟩
  · have hsum := harrival.stretched_eq_between hp hchunks hji (Nat.le_of_lt hlt)
    rw [harrival.stretched_succ_label hj] at hsum
    rw [hbehind hji, hsum]
    omega
  · have hsum := harrival.stretched_eq_between hp hchunks hij (Nat.le_of_lt hjlt)
    rw [hahead hij, hsum]
    omega
  · refine harrival.not_inReach hp hn hj hgaps ?_
    -- the rules for both sides say how far away the label of a near jump is
    rcases Nat.lt_trichotomy j i with hji | rfl | hij
    · rw [ne_eq, hbehind hji] at hnear
      exact .inl (Nat.not_le.mp hnear)
    · cases hn.symm.trans hj
    · rw [ne_eq, hahead hij] at hnear
      omega

/-- **Branch forms.** Take an image of a reachable program, at a base with room for its gaps below
and for all of it above. Every jump to a label has two bytes or those of its near form, and it has a
label in front of it or behind it. If `D` is what the nodes strictly between the two take, gaps as
wide as they could be, then a jump back is short exactly if `D + 2` is at most 127, and a jump ahead
of `N` bytes in the near form exactly if `D + N - 2` is. So a near jump with no gaps between it and
its label is out of reach of the short form. -/
theorem Assembler.assemble_branchForm {a a' : Assembler} (hp : p.Reachable) (hroom : p.Room base)
    (h : a.assemble p base = (.ok (), a')) :
    ∃ chunks address, p.chunks base a.limits = .ok chunks ∧
      a'.image.Assembles p base chunks address ∧
      ∀ i instr l chunk, p.nodeList[i]? = some (.instruction instr) → instr.jumpTarget? = some l →
        chunks[i]? = some chunk →
          (∃ j : Nat, p.nodeList[j]? = some (.label l)) ∧
            ∀ j : Nat, p.nodeList[j]? = some (.label l) →
              p.BranchForm chunks address i j (instr.nearLength p.mode) chunk := by
  unfold Assembler.assemble at h
  split at h
  · rename_i himage
    cases h
    have hbound := Program.checkBound_of_ok himage
    obtain ⟨n, previous, layout, pieces, hassembly, -⟩ := Program.assemble_eq_ok himage
    obtain ⟨walk, extent, harrival⟩ := Pass.exists_arrival hassembly.run_eq
    refine ⟨_, _, hassembly.chunks_eq, hassembly.assembles hp.valid harrival, ?_⟩
    intro i instr l chunk hn hl hchunk
    refine ⟨?_, fun j hj => hassembly.branchForm hp.valid hroom harrival hn hl hchunk hj⟩
    -- the labels of jumps are bound
    obtain ⟨b, ht, -, rfl, -⟩ := Instruction.template_of_jumpTarget hl p.mode
    have hreferences : b.label ∈ p.nodeList.flatMap Node.references := by
      refine List.mem_flatMap.mpr ⟨_, List.mem_of_getElem? hn, ?_⟩
      rw [Node.references, Instruction.label?_of_template ht]
      exact List.mem_singleton_self _
    have hcheck := forM_eq_ok_iff.mp hbound _ hreferences
    split at hcheck
    · exact hp.valid.exists_label ‹_›
    · cases hcheck
  · cases h

/-- Between the jumps of `lowLoop` and their labels are two gaps of at most three bytes and the
other jump. -/
theorem Assembler.branchForm_lowLoop :
    Program.lowLoop.Reachable ∧ Program.lowLoop.Room 0x1000 ∧
      (Assembler.assemble {} Program.lowLoop 0x1000).1 = .ok () ∧
        ∃ chunks address, Program.lowLoop.chunks 0x1000 {} = .ok chunks ∧
          Program.lowLoop.BranchForm chunks address 0 5 5 [0xEB, 4] ∧
            Program.lowLoop.BranchForm chunks address 4 1 5 [0xEB, 0xFC] := by
  have hroom : Program.lowLoop.Room 0x1000 := ⟨by decide +kernel, by decide +kernel⟩
  have hok : (Assembler.assemble {} Program.lowLoop 0x1000).1 = .ok () := by decide +kernel
  obtain ⟨chunks, address, hchunks, -, hrule⟩ :=
    Assembler.assemble_branchForm Program.reachable_lowLoop hroom (Prod.ext hok rfl)
  have hbytes : Program.lowLoop.chunks 0x1000 {} =
      .ok [[0xEB, 4], [], [0x66, 0x90], [], [0xEB, 0xFC], []] := by decide +kernel
  have hmode : Program.lowLoop.mode = .long64 := by decide +kernel
  obtain rfl := Except.ok.inj (hchunks.symm.trans hbytes)
  rw [hmode] at hrule
  refine ⟨Program.reachable_lowLoop, hroom, hok, _, address, hchunks, ?_, ?_⟩
  · exact (hrule 0 ⟨.jmp, [.label ⟨1⟩]⟩ ⟨1⟩ _ (by decide +kernel) rfl rfl).2 5 (by decide +kernel)
  · exact (hrule 4 ⟨.jmp, [.label ⟨0⟩]⟩ ⟨0⟩ _ (by decide +kernel) rfl rfl).2 1 (by decide +kernel)

end X86Asm
