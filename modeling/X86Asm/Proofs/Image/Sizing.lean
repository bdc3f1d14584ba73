import X86Asm.Proofs.Image.Unresolved
import X86Asm.Proofs.Program.Registry

/-!
# Bytes of the sizes that relaxation found

Jumps are encoded twice. Relaxation goes by estimates, in which gaps are as wide as they can be or
the label is not known at all, and the final bytes go by the addresses of the layout. Still each
node becomes as many bytes as relaxation made room for (`Program.render_agrees`). A jump that was
made short has its label within reach among the final addresses, and one that was made near is
pinned to the near form, even if the short one would do (`Blueprint.KeepsForm`).

Where a layout cannot be turned into bytes this is for a value that its field may not hold, or for
a label without a place, for which the check in front fails with the same error.
-/

namespace X86Asm

variable {p : Program} {base : UInt64} {limits : Limits} {n : Nat} {previous : Option Layout}
  {layout : Layout} {bp : Blueprint} {place : Placement} {node : Node} {e : Error}
  {walk : Nat → Walk} {extent : Nat → Extent} {i : Nat} {instr : Instruction} {l : Label}
  {image : Image}

/-! ## What is to be shown -/

/-- A jump is turned into bytes in the form that there is room for. -/
inductive Blueprint.KeepsForm (bp : Blueprint) (place : Placement) (instr : Instruction) : Prop
  /-- The short form among the final addresses. -/
  | short {encoded : Encoded} : place.length = 2 →
      instr.encode bp.program.mode (bp.context place) = .ok encoded → encoded.bytes.length = 2 →
        bp.encodeAt place instr = .ok encoded → KeepsForm bp place instr
  /-- The near form, whatever the distance. -/
  | near : place.length = instr.nearLength bp.program.mode →
      bp.encodeAt place instr = bp.encode instr { bp.context place with near := true } →
        KeepsForm bp place instr

/-- What a layout is turned into has the sizes of the layout. -/
structure Program.KeepsSizes (p : Program) (base : UInt64) (layout : Layout) : Prop where
  /-- Each node becomes as many bytes as it has room for. -/
  length_eq : ∀ (i : Nat) node place piece, p.nodeList[i]? = some node →
    layout.placements[i]? = some place →
      Blueprint.pieceOf ⟨p, base, layout.addresses⟩ place node = .ok piece →
        piece.bytes.length = place.length
  /-- The code is what the nodes become, one behind the other. -/
  code_eq : ∀ image, p.render base layout = .ok image → ∃ pieces : List Piece,
    image.code = pieces.flatMap Piece.bytes ∧
      pieces.map (fun piece => piece.bytes.length) =
        layout.placements.toList.map Placement.length ∧
      ∀ (i : Nat) node place, p.nodeList[i]? = some node → layout.placements[i]? = some place →
        ∃ piece, pieces[i]? = some piece ∧
          Blueprint.pieceOf ⟨p, base, layout.addresses⟩ place node = .ok piece
  /-- A jump has the form that relaxation gave it. -/
  form : ∀ (i : Nat) instr l place, p.nodeList[i]? = some (.instruction instr) →
    instr.jumpTarget? = some l → layout.placements[i]? = some place →
      Blueprint.KeepsForm ⟨p, base, layout.addresses⟩ place instr
  /-- No node fails for its size. -/
  not_diverged : ∀ index old new,
    p.render base layout ≠ .error (.relaxationDiverged index old new)
  /-- A node only fails for a value that its field may not hold, if its labels have places. -/
  error : ∀ e, p.render base layout = .error e → p.checkBound = .error e ∨
    ∃ (i : Nat) (node : Node) (place : Placement) (l : Label) (value : Int) (width : Nat),
      p.nodeList[i]? = some node ∧ layout.placements[i]? = some place ∧
        Blueprint.Overflow ⟨p, base, layout.addresses⟩ place node l value width ∧
          e = .ofOverflow l value width

/-! ## Labels without a place -/

/-- What is not bound has no address. -/
theorem Pass.Arrival.find?_eq_none (hp : p.Valid)
    (h : (p.pass base limits previous).Arrival p.nodeList layout walk extent)
    (hunbound : p.isBound l = false) : layout.addresses.find? l = none := by
  by_contra hne
  obtain ⟨target, htarget⟩ := Option.ne_none_iff_exists'.mp hne
  obtain ⟨j, hj, -⟩ :=
    (h.find?_addresses_iff (p.pass_base_lt base limits previous) hp.uniqueLabels l _).mp htarget
  have hbound := (hp.registry.isBound_iff l).mpr (List.mem_of_getElem? hj)
  cases hunbound.symm.trans hbound

/-- A label without an address is unresolved. -/
theorem Blueprint.resolve_of_unbound (hnone : bp.addresses.find? l = none) :
    bp.resolve l = .error (bp.program.unresolved l) := by
  unfold resolve
  rw [hnone]

/-- What the check in front refuses a node for is what the node fails for when it is turned into
bytes. -/
theorem Blueprint.pieceOf_of_unbound
    (hnone : ∀ l, bp.program.isBound l = false → bp.addresses.find? l = none)
    (hbound : ∀ l, bp.program.isBound l = true → ∃ target, bp.addresses.find? l = some target)
    (htemplate : ∀ instr, node = .instruction instr →
      ∃ t, instr.template bp.program.mode = .ok t)
    (h : node.references.forM bp.program.checkLabel = .error e) :
    bp.pieceOf place node = .error e := by
  obtain ⟨front, l, back, hreferences, hfront, hl⟩ := forM_eq_error_iff.mp h
  obtain ⟨hunbound, rfl⟩ := Program.checkLabel_eq_error.mp hl
  have hlabel := hnone l hunbound
  have hmem : l ∈ node.references := by
    rw [hreferences]
    exact List.mem_append_right _ List.mem_cons_self
  cases node with
  | instruction instr =>
    obtain ⟨t, ht⟩ := htemplate instr rfl
    have hl : instr.label? = some l := Option.mem_toList.mp hmem
    have hencode : bp.encode instr (bp.context place) = .error (bp.program.unresolved l) := by
      unfold Blueprint.encode
      rw [Instruction.encode_of_unresolved ht hl rfl hlabel]
      rfl
    show (bp.encodeAt place instr >>= _) = _
    unfold encodeAt
    rw [hencode]
    rfl
  | address l' size =>
    obtain rfl : l = l' := List.mem_singleton.mp hmem
    show bp.addressPiece place l size = _
    unfold addressPiece
    rw [resolve_of_unbound hlabel]
    rfl
  | difference l' relativeTo width =>
    show bp.differencePiece place l' relativeTo width = _
    unfold differencePiece
    rcases front with _ | ⟨first, front⟩
    · obtain rfl : l' = l := (List.cons.inj hreferences).1
      rw [resolve_of_unbound hlabel]
      rfl
    · -- the first label has a place, so it is the second one that has none
      obtain ⟨rfl, htail⟩ := List.cons.inj hreferences
      obtain ⟨target, htarget⟩ := hbound l'
        (Program.checkLabel_eq_ok.mp (hfront l' List.mem_cons_self))
      obtain rfl : relativeTo = l := by
        have hmem : l ∈ [relativeTo] := htail ▸ List.mem_append_right _ List.mem_cons_self
        exact (List.mem_singleton.mp hmem).symm
      rw [resolve_eq_ok.mpr htarget, resolve_of_unbound hlabel]
      rfl
  | _ => cases hmem

section

variable (hrelaxing : p.Relaxing base limits n previous) (hp : p.Valid)
  (h : (p.pass base limits previous).Arrival p.nodeList layout walk extent)

include hp h

/-- A node whose labels are not all bound fails as the check in front does. -/
theorem pieceOf_of_checkLabel (hn : p.nodeList[i]? = some node) (place : Placement)
    (hrefused : node.references.forM p.checkLabel = .error e) :
    Blueprint.pieceOf ⟨p, base, layout.addresses⟩ place node = .error e := by
  obtain ⟨hlt, -⟩ := List.getElem?_eq_some_iff.mp hn
  refine Blueprint.pieceOf_of_unbound (fun l => h.find?_eq_none hp)
    (fun l => h.exists_address_of_isBound hp) ?_ hrefused
  rintro instr rfl
  exact Pass.exists_template (h.trace.extent_eq i _ hlt hn)

include hrelaxing

/-- What fails when a layout is turned into bytes is a label field, or the check in front fails with
the same error. -/
theorem checkBound_or_overflow_of_render (herror : p.render base layout = .error e) :
    p.checkBound = .error e ∨
      ∃ (i : Nat) (node : Node) (place : Placement) (l : Label) (value : Int) (width : Nat),
        p.nodeList[i]? = some node ∧ layout.placements[i]? = some place ∧
          Blueprint.Overflow ⟨p, base, layout.addresses⟩ place node l value width ∧
            e = .ofOverflow l value width := by
  obtain ⟨i, node, place, hn, hplace, hpiece, hbefore⟩ := render_eq_error hrelaxing hp h herror
  obtain ⟨hlt, hget⟩ := List.getElem?_eq_some_iff.mp hn
  cases hcheck : node.references.forM p.checkLabel with
  | ok _ =>
    obtain rfl := h.place_eq hn hplace
    have hbound : ∀ l ∈ node.references, p.isBound l = true := fun l hl =>
      Program.checkLabel_eq_ok.mp (forM_eq_ok_iff.mp hcheck l hl)
    obtain ⟨l, value, width, hoverflow, he⟩ :=
      overflow_of_pieceOf hrelaxing hp h hn hbound rfl rfl hpiece
    exact .inr ⟨i, node, _, l, value, width, hn, hplace, hoverflow, he⟩
  | error e' =>
    obtain rfl := Except.error.inj
      (hpiece.symm.trans (pieceOf_of_checkLabel hp h hn place hcheck))
    refine .inl ?_
    rw [Program.checkBound_eq_forM, forM_eq_error_iff]
    refine ⟨p.nodeList.take i, node, p.nodeList.drop (i + 1), ?_, fun node' hmem => ?_, hcheck⟩
    · rw [← hget, List.cons_getElem_drop_succ, List.take_append_drop]
    · -- what is in front of the node has become bytes, so its labels are bound
      obtain ⟨k, hk, rfl⟩ := List.mem_take_iff_getElem.mp hmem
      obtain ⟨hki, hk⟩ := Nat.lt_min.mp hk
      have hn' : p.nodeList[k]? = some p.nodeList[k] := List.getElem?_eq_getElem hk
      obtain ⟨piece, hok⟩ := hbefore k hki _ _ hn' (h.placement hk)
      cases hcheck' : p.nodeList[k].references.forM p.checkLabel with
      | ok _ => rfl
      | error e' => cases hok.symm.trans (pieceOf_of_checkLabel hp h hn' _ hcheck')

/-! ## Jumps -/

/-- A jump keeps the form that the last pass gave it. -/
theorem keepsForm (hn : p.nodeList[i]? = some (.instruction instr))
    (hl : instr.jumpTarget? = some l) (haddress : place.address = (walk i).address)
    (hlength : place.length = (extent i).length) :
    Blueprint.KeepsForm ⟨p, base, layout.addresses⟩ place instr := by
  obtain ⟨hlt, -⟩ := List.getElem?_eq_some_iff.mp hn
  obtain ⟨b, ht, hshort, rfl, hnear⟩ := Instruction.template_of_jumpTarget hl p.mode
  let bp : Blueprint := ⟨p, base, layout.addresses⟩
  have hlong := instr.two_lt_nearLength p.mode
  rcases h.length_jump hn hl with ⟨hr, hform⟩ | ⟨-, hform⟩
  · have hs : b.takesShort (bp.context place) = true :=
      h.takesShort hrelaxing hp hlt hshort hr (congrArg UInt64.ofNat haddress) rfl rfl
    obtain ⟨encoded, hencode, htwo⟩ := Instruction.exists_encode_of_takesShort ht hs
    refine .short (hlength.trans hform) hencode htwo ?_
    rw [Blueprint.encodeAt_of_encode (Blueprint.encode_of_ok hencode), if_neg (by omega)]
  · refine .near (hlength.trans hform) ?_
    by_cases hs : b.takesShort (bp.context place) = true
    · -- the short form would do, but it is shorter than the place
      obtain ⟨encoded, hencode, htwo⟩ := Instruction.exists_encode_of_takesShort ht hs
      rw [Blueprint.encodeAt_of_encode (Blueprint.encode_of_ok hencode), if_pos (by omega)]
    · have hpinned : bp.encode instr { bp.context place with near := true } =
          bp.encode instr (bp.context place) := by
        unfold Blueprint.encode Instruction.encode
        rw [ht]
        exact congrArg (Except.mapError _) (Branch.fill_near hs)
      rw [hpinned]
      cases hfirst : bp.encode instr (bp.context place) with
      | ok encoded =>
        have hlen := (Instruction.length_of_encode ht (Blueprint.encode_eq_ok hfirst)).trans
          (if_neg hs)
        rw [Blueprint.encodeAt_of_encode hfirst, if_neg (by omega)]
      | error e =>
        show (bp.encode instr (bp.context place) >>= _) = _
        rw [hfirst]
        rfl

end

/-! ## Sizes -/

/-- The bytes of the pieces are the code, and each piece is as long as its place. -/
theorem Program.code_of_render (hsize : layout.placements.size = p.nodeList.length)
    (himage : p.render base layout = .ok image) : ∃ pieces : List Piece,
      image.code = pieces.flatMap Piece.bytes ∧
        pieces.map (fun piece => piece.bytes.length) =
          layout.placements.toList.map Placement.length ∧
        ∀ (i : Nat) node place, p.nodeList[i]? = some node → layout.placements[i]? = some place →
          ∃ piece, pieces[i]? = some piece ∧
            Blueprint.pieceOf ⟨p, base, layout.addresses⟩ place node = .ok piece := by
  obtain ⟨pieces, hpieces, himage⟩ := bind_eq_ok_iff.mp himage
  cases himage
  obtain ⟨hlength, hall⟩ := Blueprint.pieces_eq_ok hpieces
  have hzip : (p.nodeList.zip layout.placements.toList).map Prod.snd =
      layout.placements.toList := List.map_snd_zip (by simp [hsize])
  refine ⟨pieces, rfl, ?_, fun i node place hn hplace => ?_⟩
  · rw [← hzip, List.map_map]
    refine List.ext_getElem (by simp only [List.length_map, hlength]) fun k hk hk' => ?_
    simp only [List.length_map] at hk'
    obtain ⟨piece, hpiece, hok⟩ := hall k _ _ (List.getElem?_eq_getElem hk')
    obtain ⟨hk, rfl⟩ := List.getElem?_eq_some_iff.mp hpiece
    simp only [List.getElem_map, Function.comp_apply]
    exact (Blueprint.piece_eq_ok hok).2
  · rw [← Array.getElem?_toList] at hplace
    obtain ⟨piece, hpiece, hok⟩ :=
      hall i node place (List.getElem?_zip_eq_some.mpr ⟨hn, hplace⟩)
    exact ⟨piece, hpiece, (Blueprint.piece_eq_ok hok).1⟩

/-- **Relaxation and bytes agree.** When relaxation settles in a layout, each node becomes exactly
as many bytes as the layout has room for. A jump that was made short is short among the final
addresses, and one that was made near stays near, even if the short form would reach its label. All
that can go wrong is that a value does not fit, or that a label has no place, which the check in
front reports. -/
theorem Program.render_agrees (hp : p.Reachable) (hrelax : (p.relax base limits).1 = .ok layout) :
    p.KeepsSizes base layout := by
  obtain ⟨n, previous, hrelaxing, -, hrun, -⟩ := relax_eq_ok hrelax
  obtain ⟨walk, extent, harrival⟩ := Pass.exists_arrival hrun
  exact {
    length_eq := by
      intro i node place piece hn hplace hpiece
      obtain rfl := harrival.place_eq hn hplace
      exact length_pieceOf hrelaxing hp.valid harrival hn rfl rfl rfl hpiece
    code_eq := fun image => code_of_render harrival.size_placements
    form := by
      intro i instr l place hn hl hplace
      obtain rfl := harrival.place_eq hn hplace
      exact keepsForm hrelaxing hp.valid harrival hn hl rfl rfl
    not_diverged := by
      intro index old new herror
      cases render_error hrelaxing hp.valid harrival herror
    error := fun e => checkBound_or_overflow_of_render hrelaxing hp.valid harrival }

/-- A jump back whose label is 114 bytes away, over a gap of no bytes that could be one of 15. -/
def Program.longWayBack : Program :=
  [.createLabel, .emit (.label ⟨0⟩), .emit (.data (.replicate 112 0)), .emit (.align 16 .code),
    .emit (.instruction ⟨.jmp, [.label ⟨0⟩]⟩)].foldl Operation.apply (Program.empty .long64)

/-- The long way back is put together by operations. -/
theorem Program.reachable_longWayBack : longWayBack.Reachable := by
  refine reachable_foldl .long64 fun op hop => ?_
  simp only [List.mem_cons, List.not_mem_nil, or_false] at hop
  rcases hop with rfl | rfl | rfl | rfl | rfl
  case inr.inr.inl => exact .replicate ..
  all_goals trivial

/-- The jump of `longWayBack` has room for the near form and takes it, though among the final
addresses the short one would do. -/
theorem Program.keepsSizes_longWayBack :
    longWayBack.Reachable ∧ ∃ layout place, (longWayBack.relax 0x1000 {}).1 = .ok layout ∧
      layout.placements[3]? = some place ∧ place.length = 5 ∧
        longWayBack.KeepsSizes 0x1000 layout ∧
          let bp : Blueprint := ⟨longWayBack, 0x1000, layout.addresses⟩
          let jump : Instruction := ⟨.jmp, [.label ⟨0⟩]⟩
          (jump.encode .long64 (bp.context place)).map (·.bytes) = .ok [0xEB, 0x8E] ∧
            (bp.encodeAt place jump).map (·.bytes) = .ok [0xE9, 0x8B, 0xFF, 0xFF, 0xFF] := by
  let jump : Instruction := ⟨.jmp, [.label ⟨0⟩]⟩
  have hresult : (longWayBack.relax 0x1000 {}).1.toOption.bind (fun layout =>
      layout.placements[3]?.map fun place =>
        let bp : Blueprint := ⟨longWayBack, 0x1000, layout.addresses⟩
        (place.length, (jump.encode .long64 (bp.context place)).map (·.bytes),
          (bp.encode jump { bp.context place with near := true }).map (·.bytes))) =
      some (5, .ok [0xEB, 0x8E], .ok [0xE9, 0x8B, 0xFF, 0xFF, 0xFF]) := by
    decide +kernel
  cases hrelax : (longWayBack.relax 0x1000 {}).1 with
  | error e =>
    rw [hrelax] at hresult
    cases hresult
  | ok layout =>
    rw [hrelax] at hresult
    obtain ⟨place, hplace, hresult⟩ := Option.map_eq_some_iff.mp hresult
    obtain ⟨hlength, hshort, hnear⟩ : _ ∧ _ ∧ _ := by simpa only [Prod.mk.injEq] using hresult
    have hkeeps := render_agrees reachable_longWayBack hrelax
    refine ⟨reachable_longWayBack, layout, place, rfl, hplace, hlength, hkeeps, hshort, ?_⟩
    cases hkeeps.form 3 jump ⟨0⟩ place (by decide +kernel) rfl hplace with
    | short htwo => cases hlength.symm.trans htwo
    | near _ hpinned => exact (congrArg _ hpinned).trans hnear

end X86Asm
