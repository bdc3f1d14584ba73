import X86Asm.Proofs.Image.Divergence
import X86Asm.Proofs.Layout.Totality
import X86Asm.Proofs.LittleEndian

/-!
# Assembling succeeds

Relaxation makes at most two passes more than there are jumps (`Assembler.assemble_passes_le`). If
the labels of a program are bound and its instructions have encodings, and if there is room around
the base, relaxation arrives at a layout, and the only thing that can still go wrong is that the
value of a label field is not one that the field may hold (`Blueprint.Overflow`,
`Assembler.assemble_total`). In a small program whose label fields hold distances it cannot.
-/

namespace X86Asm

variable {p : Program} {base : UInt64} {limits : Limits} {n : Nat} {previous : Option Layout}
  {layout : Layout} {blueprint : Blueprint} {place : Placement} {node : Node} {e : Error}
  {walk : Nat → Walk} {extent : Nat → Extent} {i : Nat} {instr : Instruction} {t : Template}
  {l : Label} {value : Int} {width : Nat}

/-! ## The number of passes -/

/-- A complete program passes the check in front. -/
theorem Program.Complete.checkBound_eq_ok (h : p.Complete) : p.checkBound = .ok () := by
  refine forM_eq_ok_iff.mpr fun l hl => ?_
  obtain ⟨node, hnode, hl⟩ := List.mem_flatMap.mp hl
  exact if_pos (h.bound node hnode l hl)

/-- Assembling takes no more passes than relaxation. -/
theorem Program.assemble_passes (p : Program) (base : UInt64) (limits : Limits) :
    (p.assemble base limits).2 ≤ (p.relax base limits).2 := by
  unfold Program.assemble
  split
  · exact Nat.zero_le _
  · exact Nat.le_refl _

/-- An assembler shows how many passes its last program took. -/
theorem Assembler.passes_assemble (a : Assembler) (p : Program) (base : UInt64) :
    (a.assemble p base).2.passes = (p.assemble base a.limits).2 := by
  unfold Assembler.assemble
  rcases p.assemble base a.limits with ⟨_ | image, passes⟩ <;> rfl

/-- **Pass bound.** Relaxation begins at most two passes more than there are jumps to labels, so an
assembler never gives up for the number of passes if its limit allows as many. Each pass after the
first that does not settle makes some jump short that was near, and short it stays in all later
passes. -/
theorem Assembler.assemble_passes_le {a : Assembler} (hp : p.Reachable) :
    (p.relax base a.limits).2 ≤ p.jumps + 2 ∧ (a.assemble p base).2.passes ≤ p.jumps + 2 ∧
      (p.jumps + 2 ≤ a.limits.maxPasses.toNat →
        ∀ max, (a.assemble p base).1 ≠ .error (.relaxationLimit max)) ∧
      ∀ k previous layout, 2 ≤ k → p.Completes base a.limits k previous layout →
        Program.isSettled p.nodeList previous layout = false →
          ∃ last i instr l, previous = some last ∧ p.nodeList[i]? = some (.instruction instr) ∧
            instr.jumpTarget? = some l ∧ last.length? i = some (instr.nearLength p.mode) ∧
              ∀ m previous' layout', k ≤ m → p.Completes base a.limits m previous' layout' →
                layout'.length? i = some 2 := by
  obtain ⟨hpasses, hlimit⟩ := p.relax_passes_le base a.limits
  refine ⟨hpasses, ?_, ?_, fun k previous layout hk hcompletes => hcompletes.exists_shortened hk⟩
  · rw [passes_assemble]
    exact Nat.le_trans (p.assemble_passes base a.limits) hpasses
  · intro hallow max h
    obtain ⟨-, hrelax⟩ :=
      Program.relax_eq_error_of_isInternal hp.valid (assemble_eq_error_iff.mp h) rfl
    have := hlimit max hrelax
    omega

/-- The second pass makes the first jump of `lowLoop` short, and the third one settles. -/
theorem Assembler.passes_lowLoop :
    Program.lowLoop.Reachable ∧ Program.lowLoop.jumps = 2 ∧
      (Assembler.assemble {} Program.lowLoop 0x1000).2.passes = 3 ∧
        (Assembler.assemble {} Program.lowLoop 0x1000).2.passes ≤ Program.lowLoop.jumps + 2 :=
  ⟨Program.reachable_lowLoop, by decide +kernel, by decide +kernel,
    (Assembler.assemble_passes_le Program.reachable_lowLoop).2.1⟩

/-! ## Values that do not fit -/

/-- The value that a label field of a node has in a final layout is not one that the field may
hold. The field is the one at the end of an instruction, in the form that fills the place of the
instruction, or it is all of the node. -/
inductive Blueprint.Overflow (blueprint : Blueprint) (place : Placement) :
    Node → Label → Int → Nat → Prop
  | field {instr : Instruction} {t : Template} {near : Bool} {lead : List UInt8}
      {field : LabelField} {target : UInt64} {lo hi : Int} :
      instr.template blueprint.program.mode = .ok t →
      t.settle { blueprint.context place with near } = (lead, some field) →
      lead.length + field.width = place.length →
      blueprint.addresses.find? field.label = some target →
      fieldRange? blueprint.program.mode field.kind field.width = some (lo, hi) →
      ¬ (lo ≤ field.value (blueprint.context place) place.length target ∧
        field.value (blueprint.context place) place.length target ≤ hi) →
      Overflow blueprint place (.instruction instr) field.label
        (field.value (blueprint.context place) place.length target) field.width
  | address {l : Label} {size : UInt8} {target : UInt64} :
      blueprint.addresses.find? l = some target →
      addressFits blueprint.program.mode size target = false →
      Overflow blueprint place (.address l size) l target.toNat size.toNat

/-- The error about a value that does not fit. -/
def Error.ofOverflow (l : Label) (value : Int) (width : Nat) : Error :=
  .displacementOutOfRange l.id (Int64.ofInt value) (UInt8.ofNat width)

/-- What fails when an instruction is encoded at the length of its place is its label field. -/
theorem Blueprint.overflow_of_encode (near : Bool)
    (ht : instr.template blueprint.program.mode = .ok t)
    (hlabel : ∀ l, t.label? = some l → ∃ target, blueprint.addresses.find? l = some target)
    (hlength : t.length { blueprint.context place with near } = place.length)
    (h : blueprint.encode instr { blueprint.context place with near } = .error e) :
    ∃ l value width, blueprint.Overflow place (.instruction instr) l value width ∧
      e = .ofOverflow l value width := by
  unfold Blueprint.encode at h
  unfold Instruction.encode at h
  rw [ht] at h
  simp only at h
  cases hfill : t.fill blueprint.program.mode { blueprint.context place with near } with
  | ok encoded =>
    rw [hfill] at h
    cases h
  | error e' =>
    rw [hfill] at h
    cases h
    obtain ⟨lead, field, hsettle, hfield⟩ := Template.fill_eq_error hfill
    obtain ⟨target, htarget⟩ := hlabel _ (Template.label?_of_settle hsettle)
    rw [Template.length_settle, hsettle] at hlength
    -- the label has an address, so it is the value that does not fit
    rcases LabelField.fill_eq_error hfield with
      hnone | ⟨target', lo, hi, htarget', hrange, hout, rfl⟩
    · cases htarget.symm.trans hnone
    · have hlen : lead.length + field.width = place.length := hlength
      rw [hlen] at hout ⊢
      exact ⟨_, _, _, .field ht hsettle hlen htarget' hrange hout, rfl⟩

/-- What is bound has an address. -/
theorem Pass.Arrival.exists_address_of_isBound (hp : p.Valid)
    (h : (p.pass base limits previous).Arrival p.nodeList layout walk extent)
    (hbound : p.isBound l = true) : ∃ target, layout.addresses.find? l = some target := by
  obtain ⟨j, hj⟩ := hp.exists_label hbound
  obtain ⟨hlt, -⟩ := List.getElem?_eq_some_iff.mp hj
  have hbase := p.pass_base_lt base limits previous
  refine ⟨UInt64.ofNat (walk j).address, ?_⟩
  exact (h.find?_addresses_iff hbase hp.uniqueLabels l _).mpr
    ⟨j, hj, UInt64.toNat_ofNat_of_lt' (h.trace.address_lt hbase (Nat.le_of_lt hlt))⟩

section

variable (hrelaxing : p.Relaxing base limits n previous) (hp : p.Valid)
  (h : (p.pass base limits previous).Arrival p.nodeList layout walk extent)

include hrelaxing hp h

/-- What fails when an instruction is encoded in its place is its label field, if the label is
bound. -/
theorem overflow_of_encodeAt (hn : p.nodeList[i]? = some (.instruction instr))
    (hbound : ∀ l ∈ (Node.instruction instr).references, p.isBound l = true)
    (haddress : place.address = (walk i).address) (hlength : place.length = (extent i).length)
    (herror : Blueprint.encodeAt ⟨p, base, layout.addresses⟩ place instr = .error e) :
    ∃ l value width,
      Blueprint.Overflow ⟨p, base, layout.addresses⟩ place (.instruction instr) l value width ∧
        e = .ofOverflow l value width := by
  obtain ⟨hlt, -⟩ := List.getElem?_eq_some_iff.mp hn
  obtain ⟨t, ht⟩ : ∃ t, instr.template p.mode = .ok t :=
    Pass.exists_template (h.trace.extent_eq i _ hlt hn)
  have hlabel : ∀ l, t.label? = some l → ∃ target, layout.addresses.find? l = some target := by
    intro l hl
    refine h.exists_address_of_isBound hp (hbound l ?_)
    rw [Node.references, Instruction.label?_of_template ht, hl]
    exact List.mem_singleton_self l
  have hcontext := h.length_context hrelaxing hp hn ht
    (Blueprint.context ⟨p, base, layout.addresses⟩ place)
    (congrArg UInt64.ofNat haddress) rfl rfl
  rcases bind_eq_error_iff.mp herror with hfirst | ⟨first, hfirst, hsecond⟩
  · rcases hcontext with hsame | ⟨b, rfl, hs, -⟩
    · exact Blueprint.overflow_of_encode false ht hlabel (hsame.trans hlength.symm) hfirst
    · -- the short form would have been right
      obtain ⟨encoded, hencode, -⟩ := Instruction.exists_encode_of_takesShort ht hs
      unfold Blueprint.encode at hfirst
      rw [hencode] at hfirst
      cases hfirst
  · have hlenFirst := Instruction.length_of_encode ht (Blueprint.encode_eq_ok hfirst)
    split at hsecond
    · rename_i hless
      rcases hcontext with hsame | ⟨b, rfl, -, hlong⟩
      · omega
      · refine Blueprint.overflow_of_encode true ht hlabel ?_ hsecond
        rw [Template.length_branch_near rfl, hlength, hlong]
    · cases hsecond

/-- What fails when a node is turned into bytes is a label field, if the labels that the node refers
to are bound. -/
theorem overflow_of_pieceOf (hn : p.nodeList[i]? = some node)
    (hbound : ∀ l ∈ node.references, p.isBound l = true)
    (haddress : place.address = (walk i).address) (hlength : place.length = (extent i).length)
    (herror : Blueprint.pieceOf ⟨p, base, layout.addresses⟩ place node = .error e) :
    ∃ l value width, Blueprint.Overflow ⟨p, base, layout.addresses⟩ place node l value width ∧
      e = .ofOverflow l value width := by
  rcases Blueprint.pieceOf_eq_error herror with
    ⟨instr, rfl, hencode⟩ | ⟨l, hmem, hl⟩ | ⟨l, size, target, rfl, htarget, hfits, rfl⟩
  · exact overflow_of_encodeAt hrelaxing hp h hn hbound haddress hlength hencode
  · obtain ⟨target, htarget⟩ := h.exists_address_of_isBound hp (hbound l hmem)
    cases (Blueprint.resolve_eq_ok.mpr htarget).symm.trans hl
  · refine ⟨l, _, _, .address (Blueprint.resolve_eq_ok.mp htarget) hfits, ?_⟩
    rw [Error.ofOverflow, UInt8.ofNat_toNat, toInt64_eq_ofInt]

end

/-- What fails when the layout of a complete program is turned into bytes is a label field. -/
theorem overflow_of_render (hrelaxing : p.Relaxing base limits n previous) (hp : p.Valid)
    (hcomplete : p.Complete)
    (h : (p.pass base limits previous).Arrival p.nodeList layout walk extent)
    (herror : p.render base layout = .error e) :
    ∃ (i : Nat) (node : Node) (place : Placement) (l : Label) (value : Int) (width : Nat),
      p.nodeList[i]? = some node ∧ layout.placements[i]? = some place ∧
        Blueprint.Overflow ⟨p, base, layout.addresses⟩ place node l value width ∧
          e = .ofOverflow l value width := by
  obtain ⟨i, node, place, hn, hplace, hpiece, -⟩ := render_eq_error hrelaxing hp h herror
  obtain rfl := h.place_eq hn hplace
  obtain ⟨l, value, width, hoverflow, he⟩ := overflow_of_pieceOf hrelaxing hp h hn
    (hcomplete.bound node (List.mem_of_getElem? hn)) rfl rfl hpiece
  exact ⟨i, node, _, l, value, width, hn, hplace, hoverflow, he⟩

/-! ## Distances fit -/

/-- In a program of less than 2 GiB all distances fit. -/
theorem Pass.Arrival.not_overflow
    (h : (p.pass base limits previous).Arrival p.nodeList layout walk extent) (hp : p.Valid)
    (hsmall : p.widest + p.capacity < 2 ^ 31) (hn : p.nodeList[i]? = some node)
    (hrelative : node.isRelative = true) (haddress : place.address = (walk i).address)
    (hlength : place.length = (extent i).length) :
    ¬ Blueprint.Overflow ⟨p, base, layout.addresses⟩ place node l value width := by
  have hbase := p.pass_base_lt base limits previous
  obtain ⟨hlt, -⟩ := List.getElem?_eq_some_iff.mp hn
  intro hoverflow
  cases hoverflow with
  | address => cases hrelative
  | @field instr t near lead field target lo hi ht hsettle hlen htarget hrange hout =>
    have hlabel := (Instruction.label?_of_template ht).trans (Template.label?_of_settle hsettle)
    rw [Node.isRelative, hlabel, Option.isNone_some, Bool.false_or] at hrelative
    obtain ⟨b, rfl⟩ := Instruction.template_of_isBranch hrelative ht
    by_cases hs : b.takesShort { Blueprint.context ⟨p, base, layout.addresses⟩ place with near }
    · obtain ⟨opcode, hshort⟩ := Branch.settle_of_short hs
      cases hshort.symm.trans hsettle
      cases hrange
      rw [← hlen] at hout
      exact hout (Branch.value_of_takesShort hs htarget)
    · cases (Branch.settle_of_near hs).symm.trans hsettle
      obtain ⟨-, hwidth, -⟩ := Instruction.template_eq_branch ht
      obtain ⟨j, hj, htarget⟩ := (h.find?_addresses_iff hbase hp.uniqueLabels _ _).mp htarget
      obtain ⟨hjlt, -⟩ := List.getElem?_eq_some_iff.mp hj
      -- both ends of the distance lie within the program
      have hbetween (k : Nat) (hk : k ≤ p.nodeList.length) :
          base.toNat ≤ (walk k).address ∧
            (walk k).address ≤ base.toNat + (p.widest + p.capacity) :=
        ⟨h.trace.base_le hk,
          Nat.le_trans (Nat.le_add_right _ _) (h.trace.stretched_le_end hp hk)⟩
      have hto := hbetween j (Nat.le_of_lt hjlt)
      have hfrom := hbetween (i + 1) hlt
      have hof : (UInt64.ofNat place.address).toNat = (walk i).address := by
        rw [haddress, UInt64.toNat_ofNat_of_lt' (h.trace.address_lt hbase (Nat.le_of_lt hlt))]
      rw [h.trace.address_succ hlt] at hfrom
      simp only [LabelField.value, Blueprint.context, hof, hlength, htarget,
        show (0 : Int64).toInt = 0 from rfl] at hout
      simp only [hwidth] at hrange
      cases hmode : p.mode with
      | long64 =>
        rw [hmode] at hrange
        cases hrange
        omega
      | _ =>
        rw [hmode] at hrange
        cases hrange

/-! ## Totality -/

/-- **Totality.** Take a reachable program whose labels are bound and whose instructions have
encodings, room for its gaps below the base and for all of it above, and limits that allow what it
could need. It is assembled, or the value that a label field has in the final layout does not fit
and the error says so. If its labels enter by distances only, and it is smaller than 2 GiB, it is
assembled. -/
theorem Assembler.assemble_total {a : Assembler} (hp : p.Reachable) (hcomplete : p.Complete)
    (hroom : p.Room base) (hallow : a.limits.Allow p) :
    ((a.assemble p base).1 = .ok () ∨
      ∃ (layout : Layout) (i : Nat) (node : Node) (place : Placement) (l : Label) (value : Int)
          (width : Nat),
        (p.relax base a.limits).1 = .ok layout ∧
          p.nodeList[i]? = some node ∧ layout.placements[i]? = some place ∧
          Blueprint.Overflow ⟨p, base, layout.addresses⟩ place node l value width ∧
            (a.assemble p base).1 = .error (.ofOverflow l value width)) ∧
      ((∀ node ∈ p.nodeList, node.isRelative) → p.widest + p.capacity < 2 ^ 31 →
        (a.assemble p base).1 = .ok ()) := by
  obtain ⟨n, previous, layout, hrelaxing, hrun, hrelax⟩ :=
    Program.exists_settled hp.valid hcomplete hroom hallow
  obtain ⟨walk, extent, harrival⟩ := Pass.exists_arrival hrun
  cases hresult : (a.assemble p base).1 with
  | ok _ => exact ⟨.inl rfl, fun _ _ => rfl⟩
  | error e =>
    -- the labels are bound and the layout settles, so only emission can fail
    have hrender : p.render base layout = .error e := by
      rcases Program.assemble_eq_error (assemble_eq_error_iff.mp hresult) with
        hbound | ⟨-, hfailed | ⟨layout', hlayout, hrender⟩⟩
      · cases hcomplete.checkBound_eq_ok.symm.trans hbound
      · rw [hrelax] at hfailed
        cases hfailed
      · rw [hrelax] at hlayout
        cases hlayout
        exact hrender
    obtain ⟨i, node, place, l, value, width, hn, hplace, hoverflow, rfl⟩ :=
      overflow_of_render hrelaxing hp.valid hcomplete harrival hrender
    refine ⟨.inr ⟨layout, i, node, place, l, value, width, congrArg Prod.fst hrelax, hn, hplace,
      hoverflow, rfl⟩, fun hrelative hsmall => ?_⟩
    obtain ⟨hlt, -⟩ := List.getElem?_eq_some_iff.mp hn
    obtain rfl := Option.some.inj ((harrival.placement hlt).symm.trans hplace)
    exact absurd hoverflow (harrival.not_overflow hp.valid hsmall hn
      (hrelative node (List.mem_of_getElem? hn)) rfl rfl)

/-- At a base with room below it `lowLoop` is assembled. -/
theorem Assembler.assembled_lowLoop :
    Program.lowLoop.Reachable ∧ Program.lowLoop.Complete ∧ Program.lowLoop.Room 0x1000 ∧
      Limits.Allow {} Program.lowLoop ∧
        (Assembler.assemble {} Program.lowLoop 0x1000).1 = .ok () := by
  have hcomplete : Program.lowLoop.Complete := by
    refine ⟨by decide +kernel, fun instr hinstr => ?_⟩
    have hnodes : Program.lowLoop.nodeList = [.instruction ⟨.jmp, [.label ⟨1⟩]⟩, .label ⟨0⟩,
        .align 4 .code, .align 4 .code, .instruction ⟨.jmp, [.label ⟨0⟩]⟩, .label ⟨1⟩] := by
      decide +kernel
    refine ⟨⟨0, fun _ => none, false, false⟩, ?_⟩
    simp only [hnodes, List.mem_cons, Node.instruction.injEq, reduceCtorEq, false_or,
      List.not_mem_nil, or_false] at hinstr
    rcases hinstr with rfl | rfl
    · exact ⟨_, rfl, rfl⟩
    · exact ⟨_, rfl, rfl⟩
  have hroom : Program.lowLoop.Room 0x1000 := ⟨by decide +kernel, by decide +kernel⟩
  have hallow : Limits.Allow {} Program.lowLoop := ⟨by decide +kernel, by decide +kernel⟩
  exact ⟨Program.reachable_lowLoop, hcomplete, hroom, hallow,
    (Assembler.assemble_total Program.reachable_lowLoop hcomplete hroom hallow).2
      (by decide +kernel) (by decide +kernel)⟩

end X86Asm
