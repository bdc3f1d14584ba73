import X86Asm.Assembler
import X86Asm.Proofs.Image.Pieces
import X86Asm.Proofs.Layout.Divergence
import X86Asm.Proofs.Program.Reachable

/-!
# When assembling diverges

The bytes of a node are as many as the last pass made room for (`length_pieceOf`), so an image can
only fail to be made with a divergence if a pass does. Together with `Pass.run_diverges_iff` this
decides when assembling diverges: exactly if a pass underestimates the address of a label.

It cannot happen at a base that is not lower than what all gaps together could need
(`Assembler.not_diverges`).
-/

namespace X86Asm

variable {p : Program} {base : UInt64} {limits : Limits} {n : Nat} {previous : Option Layout}
  {layout : Layout} {bp : Blueprint} {place : Placement} {node : Node} {e : Error}
  {walk : Nat → Walk} {extent : Nat → Extent} {i : Nat} {instr : Instruction}

/-! ## Errors that say something else -/

namespace Blueprint

/-- Why an instruction has no bytes is about a node. -/
theorem encode_error {ctx : Context} (h : bp.encode instr ctx = .error e) :
    e.isAboutNode = true := by
  unfold Blueprint.encode at h
  cases hi : instr.encode bp.program.mode ctx with
  | error e' =>
    rw [hi] at h
    cases h
    have habout := instr.encode_error hi
    unfold Program.nameLabel
    split
    · rfl
    · exact habout
  | ok encoded =>
    rw [hi] at h
    cases h

/-- That a label has no address is about a node. -/
theorem resolve_error {l : Label} (h : bp.resolve l = .error e) : e.isAboutNode = true := by
  unfold resolve at h
  split at h
  · cases h
  · cases h
    rfl

/-- Why there is no piece is about the node. -/
theorem pieceOf_error (h : bp.pieceOf place node = .error e) : e.isAboutNode = true := by
  rcases pieceOf_eq_error h with ⟨i, rfl, hi⟩ | ⟨l, -, hl⟩ | ⟨l, size, target, rfl, -, -, rfl⟩
  · obtain ⟨near, hi⟩ := encodeAt_eq_error hi
    exact encode_error hi
  · exact resolve_error hl
  · rfl

end Blueprint

/-! ## The bytes are as many as there is room for -/

section

variable (hrelaxing : p.Relaxing base limits n previous) (hp : p.Valid)
  (h : (p.pass base limits previous).Arrival p.nodeList layout walk extent)

include hrelaxing hp h

/-- A branch that the last pass made short has its label within reach. -/
theorem Pass.Arrival.takesShort (hi : i < p.nodeList.length) {b : Branch}
    (hshort : b.short?.isSome) (hr : (p.pass base limits previous).Reaches (walk i) b.label)
    {ctx : Context} (haddress : ctx.address = UInt64.ofNat (walk i).address)
    (hresolve : ctx.resolve = layout.addresses.find?) (hnear : ctx.near = false) :
    b.takesShort ctx = true := by
  have hbase := p.pass_base_lt base limits previous
  obtain ⟨j, hj, hclose⟩ := h.close_of_reaches hrelaxing hp (Nat.le_of_lt hi) hr
  obtain ⟨hjlt, -⟩ := List.getElem?_eq_some_iff.mp hj
  have hreach := hclose.inReach h.trace (Nat.le_of_lt hi) (Nat.le_of_lt hjlt)
  have hof : ∀ k, k ≤ p.nodeList.length →
      (UInt64.ofNat (walk k).address).toNat = (walk k).address := fun k hk =>
    UInt64.toNat_ofNat_of_lt' (h.trace.address_lt hbase hk)
  rw [Branch.takesShort_iff hnear hshort, haddress, hresolve, hof i (Nat.le_of_lt hi)]
  refine ⟨_, (h.find?_addresses_iff hbase hp.uniqueLabels _ _).mpr
    ⟨j, hj, hof j (Nat.le_of_lt hjlt)⟩, ?_⟩
  rwa [hof j (Nat.le_of_lt hjlt)]

/-- Among the final addresses an instruction has the length that the last pass gave it, unless it is
a branch that the pass made near and that could be short after all. -/
theorem Pass.Arrival.length_context (hn : p.nodeList[i]? = some (.instruction instr)) {t : Template}
    (ht : instr.template p.mode = .ok t) (ctx : Context)
    (haddress : ctx.address = UInt64.ofNat (walk i).address)
    (hresolve : ctx.resolve = layout.addresses.find?) (hnear : ctx.near = false) :
    t.length ctx = (extent i).length ∨
      ∃ b, t = .branch b ∧ b.takesShort ctx = true ∧
        (extent i).length = b.near.length + b.nearWidth := by
  obtain ⟨hlt, -⟩ := List.getElem?_eq_some_iff.mp hn
  have he := h.trace.extent_eq i _ hlt hn
  by_cases hbranch : ∃ b, t = .branch b ∧ b.short?.isSome
  · obtain ⟨b, rfl, hshort⟩ := hbranch
    have hspace := h.trace.inSpace (p.pass_base_lt base limits _) (Nat.le_of_lt hlt)
    rcases Pass.length_branch hspace he ht hshort with ⟨hr, hlen⟩ | ⟨-, hlen⟩
    · -- a short branch is short for good
      have hs := h.takesShort hrelaxing hp hlt hshort hr haddress hresolve hnear
      exact .inl ((if_pos hs).trans hlen.symm)
    · by_cases hs : b.takesShort ctx = true
      · exact .inr ⟨b, rfl, hs, hlen⟩
      · exact .inl ((if_neg hs).trans hlen.symm)
  · -- the length of everything else is the same in all contexts
    rw [Pass.length_of_extent he ht]
    exact .inl (Template.length_congr hbranch _ _)

/-- An instruction has as many bytes as the last pass gave it. -/
theorem length_encodeAt (hn : p.nodeList[i]? = some (.instruction instr))
    (haddress : place.address = (walk i).address) (hlength : place.length = (extent i).length)
    {encoded : Encoded}
    (hencoded : Blueprint.encodeAt ⟨p, base, layout.addresses⟩ place instr = .ok encoded) :
    encoded.bytes.length = (extent i).length := by
  obtain ⟨first, hfirst, hchoice⟩ := Blueprint.encodeAt_eq_ok hencoded
  obtain ⟨t, ht, -⟩ := Instruction.encode_eq_ok hfirst
  have hlenFirst := Instruction.length_of_encode ht hfirst
  rcases h.length_context hrelaxing hp hn ht
    (Blueprint.context ⟨p, base, layout.addresses⟩ place)
    (congrArg UInt64.ofNat haddress) rfl rfl with hsame | ⟨b, rfl, hs, hlong⟩
  · rcases hchoice with ⟨-, rfl⟩ | ⟨hless, -⟩ <;> omega
  · -- it is pinned to the near form
    have htwo := two_lt_near ht
    rw [Template.length, if_pos hs] at hlenFirst
    rcases hchoice with ⟨hle, -⟩ | ⟨-, hnear⟩
    · omega
    · rw [Instruction.length_of_encode ht hnear, Template.length_branch_near rfl, hlong]

/-- A node has as many bytes as the last pass gave it. -/
theorem length_pieceOf (hn : p.nodeList[i]? = some node)
    (haddress : place.address = (walk i).address) (hlength : place.length = (extent i).length)
    (hpadding : place.padding = (extent i).padding) {piece : Piece}
    (hpiece : Blueprint.pieceOf ⟨p, base, layout.addresses⟩ place node = .ok piece) :
    piece.bytes.length = (extent i).length := by
  obtain ⟨hlt, -⟩ := List.getElem?_eq_some_iff.mp hn
  have he := h.trace.extent_eq i _ hlt hn
  cases node with
  | instruction instr =>
    obtain ⟨encoded, hencoded, hpiece⟩ := bind_eq_ok_iff.mp hpiece
    cases hpiece
    exact length_encodeAt hrelaxing hp h hn haddress hlength hencoded
  | label l =>
    cases hpiece
    rw [← Except.ok.inj he]
    rfl
  | sectionStart s =>
    cases hpiece
    obtain ⟨-, hpad, -⟩ := Pass.gapExtent_eq_ok he
    show (List.replicate place.padding _).length = _
    rw [List.length_replicate, hpadding, hpad]
  | data payload =>
    cases hpiece
    have hmade : payload.Made := (hp.admits_getElem? hn).inDomain
    rw [← Except.ok.inj he]
    exact hmade.size_eq.symm
  | align alignment filler =>
    cases hpiece
    obtain ⟨-, hpad, -⟩ := Pass.gapExtent_eq_ok he
    rw [Filler.length_bytes, hpadding, hpad]
  | address l size =>
    obtain ⟨target, -, hpiece⟩ := bind_eq_ok_iff.mp hpiece
    split at hpiece
    · cases hpiece
      rw [← Except.ok.inj he]
      exact length_littleEndian ..
    · cases hpiece
  | difference l relativeTo width =>
    obtain ⟨target, -, hpiece⟩ := bind_eq_ok_iff.mp hpiece
    obtain ⟨origin, -, hpiece⟩ := bind_eq_ok_iff.mp hpiece
    cases hpiece
    rw [← Except.ok.inj he]
    exact length_littleEndian ..

/-- What fails when a layout is turned into bytes is the first node that does, and it is not for
its length. -/
theorem render_eq_error (herror : p.render base layout = .error e) :
    ∃ (i : Nat) (node : Node) (place : Placement),
      p.nodeList[i]? = some node ∧ layout.placements[i]? = some place ∧
        Blueprint.pieceOf ⟨p, base, layout.addresses⟩ place node = .error e ∧
          ∀ k < i, ∀ node place, p.nodeList[k]? = some node → layout.placements[k]? = some place →
            ∃ piece, Blueprint.pieceOf ⟨p, base, layout.addresses⟩ place node = .ok piece := by
  rcases bind_eq_error_iff.mp herror with hpieces | ⟨pieces, -, hpieces⟩
  · obtain ⟨i, node, place, hi, hpiece, hbefore⟩ := Blueprint.pieces_eq_error hpieces
    obtain ⟨hn, hplace⟩ := List.getElem?_zip_eq_some.mp hi
    rw [Array.getElem?_toList] at hplace
    refine ⟨i, node, place, hn, hplace, ?_, fun k hk node' place' hn' hplace' => ?_⟩
    · rcases bind_eq_error_iff.mp hpiece with hpiece | ⟨piece, hpiece, hlength⟩
      · exact hpiece
      · obtain rfl := h.place_eq hn hplace
        rw [if_pos (length_pieceOf hrelaxing hp h hn rfl rfl rfl hpiece)] at hlength
        cases hlength
    · rw [← Array.getElem?_toList] at hplace'
      obtain ⟨piece, hok⟩ :=
        hbefore k hk node' place' (List.getElem?_zip_eq_some.mpr ⟨hn', hplace'⟩)
      exact ⟨piece, (Blueprint.piece_eq_ok hok).1⟩
  · cases hpieces

/-- What fails when a layout is turned into bytes is never the layout. -/
theorem render_error (herror : p.render base layout = .error e) : e.isAboutNode = true := by
  obtain ⟨i, node, place, -, -, hpiece, -⟩ := render_eq_error hrelaxing hp h herror
  exact Blueprint.pieceOf_error hpiece

end

/-! ## When assembling diverges -/

/-- The address of a label is underestimated in one of the passes. -/
def Program.Underestimates (p : Program) (base : UInt64) (limits : Limits) : Prop :=
  ∃ n layout index w, Underestimate p base limits n layout index w

/-- That a label is not bound is about a node. -/
theorem Program.checkBound_error (h : p.checkBound = .error e) : e.isAboutNode = true := by
  obtain ⟨l, -, hl⟩ := exists_of_forM_eq_error h
  split at hl
  · cases hl
  · cases hl
    rfl

/-- What fails is the check in front, or relaxation, or the image of the layout that it arrives
at. -/
theorem Program.assemble_eq_error (h : (p.assemble base limits).1 = .error e) :
    p.checkBound = .error e ∨ p.checkBound = .ok () ∧ ((p.relax base limits).1 = .error e ∨
      ∃ layout, (p.relax base limits).1 = .ok layout ∧ p.render base layout = .error e) := by
  unfold Program.assemble at h
  split at h
  · rename_i e' hbound
    cases h
    exact .inl hbound
  · rename_i hbound
    exact .inr ⟨hbound, bind_eq_error_iff.mp h⟩

/-- An error about the layout is one of relaxation. -/
theorem Program.relax_eq_error_of_isInternal (hp : p.Valid)
    (h : (p.assemble base limits).1 = .error e) (hinternal : e.isInternal = true) :
    p.checkBound = .ok () ∧ (p.relax base limits).1 = .error e := by
  rcases assemble_eq_error h with hbound | ⟨hbound, hrelax | ⟨layout, hrelax, hrender⟩⟩
  · have habout := Error.isInternal_of_isAboutNode (checkBound_error hbound)
    cases hinternal.symm.trans habout
  · exact ⟨hbound, hrelax⟩
  · obtain ⟨n, previous, hrelaxing, -, hrun, -⟩ := relax_eq_ok hrelax
    obtain ⟨walk, extent, harrival⟩ := Pass.exists_arrival hrun
    have habout := Error.isInternal_of_isAboutNode (render_error hrelaxing hp harrival hrender)
    cases hinternal.symm.trans habout

/-- A program whose labels are bound diverges exactly if a pass underestimates a branch. -/
theorem Program.assemble_diverges_iff (hp : p.Valid) :
    (∃ e, (p.assemble base limits).1 = .error e ∧ e.isDivergence) ↔
      p.checkBound = .ok () ∧ p.Underestimates base limits := by
  constructor
  · rintro ⟨e, h, hdiv⟩
    have hinternal := Error.isInternal_of_isDivergence hdiv
    obtain ⟨hbound, hrelax⟩ := relax_eq_error_of_isInternal hp h hinternal
    refine ⟨hbound, ?_⟩
    rcases relax_eq_error hrelax with rfl | ⟨n, previous, hrelaxing, hn, hrun⟩
    · cases hdiv
    · obtain ⟨layout, index, w, -, hunder⟩ :=
        (Pass.run_diverges_iff hrelaxing hn hp).mp ⟨e, hrun, hdiv⟩
      exact ⟨n, layout, index, w, hunder⟩
  · rintro ⟨hbound, n, layout, index, w, hunder⟩
    obtain ⟨e, hrun, hdiv⟩ := (Pass.run_diverges_iff hunder.relaxing hunder.lt_maxPasses hp).mpr
      ⟨layout, index, w, rfl, hunder⟩
    unfold Program.assemble
    rw [hbound, hunder.relaxing.relax_of_error hunder.lt_maxPasses hrun]
    exact ⟨e, rfl, hdiv⟩

/-- An assembler fails as the program cannot be assembled within its limits. -/
theorem Assembler.assemble_eq_error_iff {a : Assembler} :
    (a.assemble p base).1 = .error e ↔ (p.assemble base a.limits).1 = .error e := by
  unfold Assembler.assemble
  rcases p.assemble base a.limits with ⟨_ | image, passes⟩ <;> simp

/-- **Divergence.** Assembling a reachable program diverges exactly if its labels are bound and
one of the passes comes to a branch that was short, and whose label, which lies behind it, has an
address lower than the slack in between. -/
theorem Assembler.diverges_iff {a : Assembler} (hp : p.Reachable) :
    (∃ index old new, (a.assemble p base).1 = .error (.relaxationDiverged index old new)) ↔
      p.checkBound = .ok () ∧ p.Underestimates base a.limits := by
  rw [← Program.assemble_diverges_iff hp.valid]
  constructor
  · rintro ⟨index, old, new, h⟩
    exact ⟨_, assemble_eq_error_iff.mp h, rfl⟩
  · rintro ⟨e, h, hdiv⟩
    cases e with
    | relaxationDiverged index old new => exact ⟨index, old, new, assemble_eq_error_iff.mpr h⟩
    | _ => cases hdiv

/-- A branch with two gaps between it and its label. At the base 0 the first pass makes the branch
short. In the second the label is at the address 2, and the gaps leave a slack of 4. -/
def Program.lowLoop : Program :=
  [.createLabel, .createLabel, .emit (.instruction ⟨.jmp, [.label ⟨1⟩]⟩), .emit (.label ⟨0⟩),
    .emit (.align 4 .code), .emit (.align 4 .code), .emit (.instruction ⟨.jmp, [.label ⟨0⟩]⟩),
    .emit (.label ⟨1⟩)].foldl Operation.apply (Program.empty .long64)

/-- The loop is put together by operations. -/
theorem Program.reachable_lowLoop : Program.lowLoop.Reachable := by
  refine Program.reachable_foldl .long64 fun op hop => ?_
  simp only [List.mem_cons, List.not_mem_nil, or_false] at hop
  rcases hop with rfl | rfl | rfl | rfl | rfl | rfl | rfl | rfl <;> trivial

/-- The branch of the loop lies so low that it is underestimated. -/
theorem Assembler.underestimates_lowLoop :
    Program.lowLoop.Reachable ∧ Program.lowLoop.checkBound = .ok () ∧
      Program.lowLoop.Underestimates 0 {} :=
  ⟨Program.reachable_lowLoop,
    (Assembler.diverges_iff (a := {}) Program.reachable_lowLoop).mp ⟨4, 2, 5, by decide +kernel⟩⟩

/-- Not every reachable program can be assembled without divergence: at the base 0 the branch of
`lowLoop` grows from two bytes to five. -/
theorem Assembler.diverges_lowLoop :
    ¬ ∀ (a : Assembler) (p : Program) (base : UInt64), p.Reachable →
      ∀ index old new, (a.assemble p base).1 ≠ .error (.relaxationDiverged index old new) := by
  intro hnever
  refine hnever {} Program.lowLoop 0 Program.reachable_lowLoop 4 2 5 ?_
  decide +kernel

/-! ## Bases at which it cannot happen -/

/-- At a base that is not lower than the capacity of the gaps nothing is underestimated. -/
theorem Assembler.not_diverges {a : Assembler} (hp : p.Reachable) (hbase : p.capacity ≤ base.toNat)
    (index old new : UInt64) :
    (a.assemble p base).1 ≠ .error (.relaxationDiverged index old new) := by
  intro hdiv
  obtain ⟨-, n, layout, k, w, hunder⟩ :=
    (Program.assemble_diverges_iff hp.valid).mp ⟨_, assemble_eq_error_iff.mp hdiv, rfl⟩
  exact absurd (hunder.base_lt hp.valid) (Nat.not_lt.mpr hbase)

end X86Asm
