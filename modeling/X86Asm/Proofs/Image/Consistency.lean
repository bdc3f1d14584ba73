import Mathlib.Order.Bounds.Defs
import X86Asm.Assembler
import X86Asm.Proofs.Image.Pieces
import X86Asm.Proofs.Layout.Shrinking
import X86Asm.Proofs.LittleEndian
import X86Asm.Proofs.Program.Reachable

/-!
# Images are consistent

An image that is made is an assembly of its program: the bytes of the nodes stand one behind the
other from the base on, the label table has the places of the labels, and every node has the bytes
that it should have at its address and against that table.

The last pass fixes the addresses, and each piece is as long as that pass has it, so the addresses
of the layout are the sums of the lengths of the pieces.
-/

namespace X86Asm

variable {p : Program} {base : UInt64} {limits : Limits} {image : Image} {passes n : Nat}
  {previous : Option Layout} {layout : Layout} {pieces : List Piece}

/-! ## What is to be shown -/

/-- The bytes that a node has at an address, by a table of label addresses. -/
def Node.Renders (p : Program) (labels : LabelTable UInt64) (address : Nat) (bytes : List UInt8) :
    Node → Prop
  | .instruction i => ∃ near encoded, bytes = encoded.bytes ∧
      i.encode p.mode
        { address := UInt64.ofNat address, resolve := labels.find?, strict := true, near } =
          .ok encoded
  | .label _ => bytes = []
  | .sectionStart s => ∃ alignment, p.sectionAlignment? s = some alignment ∧
      IsLeast {n | alignment.toNat ∣ address + n} bytes.length
  | .data payload => bytes = payload.bytes
  | .align alignment filler => bytes = filler.bytes p.mode bytes.length ∧
      IsLeast {n | alignment.toNat ∣ address + n} bytes.length
  | .address l size => ∃ target, labels.find? l = some target ∧
      bytes = littleEndian size.toNat target.toNat
  | .difference l relativeTo width => ∃ target origin,
      labels.find? l = some target ∧ labels.find? relativeTo = some origin ∧
        bytes = littleEndian width.bytes (target.toNat - origin.toNat)

/-- The image consists of the chunks of the nodes, the `i`-th of which stands at `address i`. -/
structure Image.Assembles (image : Image) (p : Program) (base : UInt64)
    (chunks : List (List UInt8)) (address : Nat → Nat) : Prop where
  length_eq : chunks.length = p.nodeList.length
  code_eq : image.code = chunks.flatten
  address_zero : address 0 = base.toNat
  address_succ : ∀ (i : Nat) (chunk : List UInt8), chunks[i]? = some chunk →
    address (i + 1) = address i + chunk.length
  address_lt : ∀ i, i ≤ chunks.length → address i < addressSpace
  label_iff : ∀ l target, image.labels.find? l = some target ↔
    ∃ i, p.nodeList[i]? = some (.label l) ∧ target.toNat = address i
  renders : ∀ (i : Nat) (node : Node) (chunk : List UInt8), p.nodeList[i]? = some node →
    chunks[i]? = some chunk → node.Renders p image.labels (address i) chunk

/-- The image ends where the last chunk does. -/
theorem Image.Assembles.address_end {chunks : List (List UInt8)} {address : Nat → Nat}
    (h : image.Assembles p base chunks address) :
    address chunks.length = base.toNat + image.size := by
  have hfront : ∀ k ≤ chunks.length, address k = base.toNat + (chunks.take k).flatten.length := by
    intro k hk
    induction k with
    | zero => exact h.address_zero
    | succ k ih =>
      have hchunk := List.getElem?_eq_getElem hk
      rw [h.address_succ k _ hchunk, ih (Nat.le_of_succ_le hk), List.take_add_one, hchunk,
        List.flatten_append, List.length_append, Option.toList_some, List.flatten_singleton,
        Nat.add_assoc]
  rw [hfront _ (Nat.le_refl _), List.take_length, Image.size, h.code_eq]

/-! ## How an image comes about -/

/-- The passes that lead to an image, the layout of the last one, and the pieces. -/
structure Assembly (p : Program) (base : UInt64) (limits : Limits) (image : Image) (n : Nat)
    (previous : Option Layout) (layout : Layout) (pieces : List Piece) : Prop where
  relaxing : p.Relaxing base limits n previous
  lt_maxPasses : n < limits.maxPasses.toNat
  run_eq : (p.pass base limits previous).run p.nodeList = .ok layout
  settled : Program.isSettled p.nodeList previous layout = true
  pieces_eq : Blueprint.pieces ⟨p, base, layout.addresses⟩ 0
    (p.nodeList.zip layout.placements.toList) = .ok pieces
  image_eq : image = .ofPieces ⟨p, base, layout.addresses⟩ pieces

/-- The labels of a program that is assembled are bound. -/
theorem Program.checkBound_of_ok (h : p.assemble base limits = (.ok image, passes)) :
    p.checkBound = .ok () := by
  unfold Program.assemble at h
  split at h
  · cases h
  · assumption

/-- An image comes about by a pass that settles and the pieces of its layout. -/
theorem Program.assemble_eq_ok (h : p.assemble base limits = (.ok image, passes)) :
    ∃ n previous layout pieces, Assembly p base limits image n previous layout pieces ∧
      passes = n + 1 := by
  have hbound := checkBound_of_ok h
  unfold Program.assemble at h
  rw [hbound] at h
  obtain ⟨hrender, rfl⟩ := Prod.mk.inj h
  obtain ⟨layout, hlayout, hrender⟩ := bind_eq_ok_iff.mp hrender
  obtain ⟨n, previous, hrelaxing, hn, hrun, hsettled, hrelax⟩ := relax_eq_ok hlayout
  obtain ⟨pieces, hpieces, himage⟩ := bind_eq_ok_iff.mp hrender
  cases himage
  exact ⟨n, previous, layout, pieces, ⟨hrelaxing, hn, hrun, hsettled, hpieces, rfl⟩,
    congrArg Prod.snd hrelax⟩

/-- An assembler that succeeds keeps the image of the program. -/
theorem Assembler.assemble_eq_ok {a a' : Assembler} (h : a.assemble p base = (.ok (), a')) :
    ∃ image passes, p.assemble base a.limits = (.ok image, passes) ∧
      a' = { a with image, passes } := by
  unfold assemble at h
  split at h
  · rename_i image passes himage
    cases h
    exact ⟨image, passes, himage, rfl⟩
  · cases h

/-- Each node has a piece, made at the place that the last pass gives the node. -/
theorem Assembly.piece (h : Assembly p base limits image n previous layout pieces)
    {walk : Nat → Walk} {extent : Nat → Extent}
    (harrival : (p.pass base limits previous).Arrival p.nodeList layout walk extent) :
    pieces.length = p.nodeList.length ∧ ∀ i node, p.nodeList[i]? = some node →
      ∃ piece, pieces[i]? = some piece ∧ piece.bytes.length = (extent i).length ∧
        Blueprint.pieceOf ⟨p, base, layout.addresses⟩
          ⟨(walk i).address, (extent i).length, (extent i).padding, (walk i).slack⟩ node =
            .ok piece := by
  obtain ⟨hlength, hpiece⟩ := Blueprint.pieces_eq_ok h.pieces_eq
  refine ⟨by simp [hlength, harrival.size_placements], ?_⟩
  intro i node hi
  obtain ⟨hlt, -⟩ := List.getElem?_eq_some_iff.mp hi
  have hplace := harrival.placement hlt
  rw [← Array.getElem?_toList] at hplace
  obtain ⟨piece, hi', hok⟩ := hpiece i node _ (List.getElem?_zip_eq_some.mpr ⟨hi, hplace⟩)
  obtain ⟨hok, hlen⟩ := Blueprint.piece_eq_ok hok
  exact ⟨piece, hi', hlen, hok⟩

/-- What every piece is to its node holds of the pieces in a row, which start at the base. -/
theorem Assembly.inRow (h : Assembly p base limits image n previous layout pieces)
    {walk : Nat → Walk} {extent : Nat → Extent}
    (harrival : (p.pass base limits previous).Arrival p.nodeList layout walk extent)
    {R : Nat → Piece → Node → Prop}
    (hpiece : ∀ i node piece, p.nodeList[i]? = some node →
      Blueprint.pieceOf ⟨p, base, layout.addresses⟩
        ⟨(walk i).address, (extent i).length, (extent i).padding, (walk i).slack⟩ node =
          .ok piece →
      piece.bytes.length = (extent i).length → R ((walk i).address - base.toNat) piece node) :
    Piece.InRow R 0 pieces p.nodeList := by
  have htrace := harrival.trace
  obtain ⟨hlength, hpieces⟩ := h.piece harrival
  have hzero : (walk 0).address - base.toNat = 0 := by
    rw [htrace.address_zero]
    exact Nat.sub_self _
  rw [← hzero]
  refine .of_getElem? (fun i => (walk i).address - base.toNat) hlength fun i piece node hi hn => ?_
  obtain ⟨_, hi', hlen, hok⟩ := hpieces i node hn
  obtain rfl := Option.some.inj (hi.symm.trans hi')
  obtain ⟨hlt, -⟩ := List.getElem?_eq_some_iff.mp hn
  have hbase : base.toNat ≤ (walk i).address := htrace.base_le (Nat.le_of_lt hlt)
  refine ⟨hpiece i node piece hn hok hlen, ?_⟩
  rw [htrace.address_succ hlt, hlen]
  omega

/-! ## The bytes of a node -/

/-- What two addresses differ by, cut off to a width, is not affected by the wrap around. -/
theorem littleEndian_sub (width : Width) (target origin : UInt64) :
    littleEndian width.bytes (target - origin).toNat =
      littleEndian width.bytes ((target.toNat : Int) - origin.toNat) := by
  have hdvd : (256 : Int) ^ width.bytes ∣ 0x10000000000000000 := by
    cases width <;> exact Int.dvd_of_emod_eq_zero rfl
  refine littleEndian_congr (Int.ModEq.of_dvd hdvd ?_)
  have := origin.toNat_lt
  rw [Int.ModEq, UInt64.toNat_sub]
  omega

/-- A gap is no longer than it has to be. -/
theorem gap_isLeast {address : Nat} {alignment : UInt32} {extent : Extent}
    (hpow : Program.isPowerOfTwo alignment)
    (h : Pass.gapExtent address alignment = .ok extent) :
    IsLeast {n | alignment.toNat ∣ address + n} extent.length :=
  ⟨Pass.dvd_gapExtent_end (Program.isPowerOfTwo_pos hpow) h,
    fun _ hn => Pass.gapExtent_least (Program.isPowerOfTwo_pos hpow) h hn⟩

/-- The piece of a node has the bytes that the node should have. -/
theorem renders_pieceOf (hp : p.Valid) {i : Nat} {node : Node}
    (hi : p.nodeList[i]? = some node) {pass : Pass} (hpass : pass.program = p) {w : Walk}
    {extent : Extent} (hextent : pass.extent w node = .ok extent) {labels : LabelTable UInt64}
    {piece : Piece} (hlen : piece.bytes.length = extent.length)
    (hpiece : Blueprint.pieceOf ⟨p, base, labels⟩
      ⟨w.address, extent.length, extent.padding, w.slack⟩ node = .ok piece) :
    node.Renders p labels w.address piece.bytes := by
  subst hpass
  cases node with
  | instruction instr =>
    obtain ⟨encoded, hencoded, hpiece⟩ := bind_eq_ok_iff.mp hpiece
    cases hpiece
    obtain ⟨near, hencode⟩ := Blueprint.exists_encode_of_encodeAt hencoded
    exact ⟨near, encoded, rfl, hencode⟩
  | label l =>
    cases hpiece
    exact rfl
  | sectionStart s =>
    obtain ⟨alignment, halign, hpow⟩ := hp.sectionAlignment hi
    refine ⟨alignment, halign, ?_⟩
    rw [hlen]
    refine gap_isLeast hpow ?_
    rwa [Pass.extent, halign] at hextent
  | data payload =>
    cases hpiece
    exact rfl
  | align alignment filler =>
    cases hpiece
    obtain ⟨-, hpad, -⟩ := Pass.gapExtent_eq_ok hextent
    refine ⟨?_, ?_⟩
    · rw [Filler.length_bytes]
    · rw [hlen]
      exact gap_isLeast (hp.admits_getElem? hi).inDomain hextent
  | address l size =>
    obtain ⟨target, htarget, hpiece⟩ := bind_eq_ok_iff.mp hpiece
    split at hpiece
    · cases hpiece
      exact ⟨target, Blueprint.resolve_eq_ok.mp htarget, rfl⟩
    · cases hpiece
  | difference l relativeTo width =>
    obtain ⟨target, htarget, hpiece⟩ := bind_eq_ok_iff.mp hpiece
    obtain ⟨origin, horigin, hpiece⟩ := bind_eq_ok_iff.mp hpiece
    cases hpiece
    exact ⟨target, origin, Blueprint.resolve_eq_ok.mp htarget,
      Blueprint.resolve_eq_ok.mp horigin, littleEndian_sub width target origin⟩

/-- The bytes of the pieces assemble the program, at the addresses of the last pass. -/
theorem Assembly.assembles (h : Assembly p base limits image n previous layout pieces)
    (hp : p.Valid) {walk : Nat → Walk} {extent : Nat → Extent}
    (harrival : (p.pass base limits previous).Arrival p.nodeList layout walk extent) :
    image.Assembles p base (pieces.map Piece.bytes) fun i => (walk i).address := by
  have htrace := harrival.trace
  obtain ⟨hlength, hpieces⟩ := h.piece harrival
  have hbase := p.pass_base_lt base limits previous
  obtain rfl := h.image_eq
  -- a chunk is the bytes of the piece of a node
  have hchunk : ∀ (i : Nat) (chunk : List UInt8), (pieces.map Piece.bytes)[i]? = some chunk →
      ∃ (node : Node) (piece : Piece), p.nodeList[i]? = some node ∧ pieces[i]? = some piece ∧
        piece.bytes = chunk := by
    intro i chunk hi
    rw [List.getElem?_map] at hi
    obtain ⟨piece, hpiece, rfl⟩ := Option.map_eq_some_iff.mp hi
    obtain ⟨hlt, -⟩ := List.getElem?_eq_some_iff.mp hpiece
    exact ⟨_, piece, List.getElem?_eq_getElem (hlength ▸ hlt), hpiece, rfl⟩
  refine ⟨by rw [List.length_map, hlength], List.flatMap_def .., htrace.address_zero,
    ?_, ?_, ?_, ?_⟩
  · intro i chunk hi
    obtain ⟨node, piece, hn, hpiece, rfl⟩ := hchunk i chunk hi
    obtain ⟨piece', hpiece', hlen, -⟩ := hpieces i node hn
    obtain rfl := Option.some.inj (hpiece.symm.trans hpiece')
    obtain ⟨hlt, -⟩ := List.getElem?_eq_some_iff.mp hn
    rw [htrace.address_succ hlt, hlen]
  · intro i hi
    rw [List.length_map, hlength] at hi
    exact htrace.address_lt hbase hi
  · exact harrival.find?_addresses_iff hbase hp.uniqueLabels
  · intro i node chunk hn hi
    obtain ⟨node', piece, hn', hpiece, rfl⟩ := hchunk i chunk hi
    obtain ⟨piece', hpiece', hlen, hok⟩ := hpieces i node hn
    obtain rfl := Option.some.inj (hpiece.symm.trans hpiece')
    obtain ⟨hlt, -⟩ := List.getElem?_eq_some_iff.mp hn
    exact renders_pieceOf hp hn rfl (htrace.extent_eq i node hlt hn) hlen hok

/-- The last pass ends where the image does. -/
theorem Assembly.address_end (h : Assembly p base limits image n previous layout pieces)
    (hp : p.Valid) {walk : Nat → Walk} {extent : Nat → Extent}
    (harrival : (p.pass base limits previous).Arrival p.nodeList layout walk extent) :
    (walk p.nodeList.length).address = base.toNat + image.size := by
  have hassembles := h.assembles hp harrival
  rw [← hassembles.length_eq]
  exact hassembles.address_end

/-- An image of a reachable program assembles it. -/
theorem Program.assembles_of_ok (hp : p.Valid)
    (h : p.assemble base limits = (.ok image, passes)) :
    ∃ chunks address, image.Assembles p base chunks address := by
  obtain ⟨n, previous, layout, pieces, hassembly, -⟩ := assemble_eq_ok h
  obtain ⟨walk, extent, harrival⟩ := Pass.exists_arrival hassembly.run_eq
  exact ⟨_, _, hassembly.assembles hp harrival⟩

/-- **Consistency.** What an assembler makes of a reachable program is an assembly of it: chunks
of bytes one behind the other from the base on, with the labels where the nodes are that place
them, and every node as it should be in its place. -/
theorem Assembler.assemble_assembles {a a' : Assembler} (hp : p.Reachable)
    (h : a.assemble p base = (.ok (), a')) :
    ∃ chunks address, a'.image.Assembles p base chunks address := by
  unfold Assembler.assemble at h
  split at h
  · rename_i himage
    cases h
    exact Program.assembles_of_ok hp.valid himage
  · cases h

/-- A jump to itself. -/
def Program.spin : Program :=
  [.createLabel, .emit (.label ⟨0⟩), .emit (.instruction ⟨.jmp, [.label ⟨0⟩]⟩)].foldl
    Operation.apply (Program.empty .long64)

/-- The image of a branch to itself. -/
theorem Assembler.assembles_spin :
    ∃ chunks address, (Assembler.assemble {} Program.spin 0x1000).2.image.Assembles Program.spin
      0x1000 chunks address := by
  have hp : Program.spin.Reachable := by
    refine Program.reachable_foldl .long64 fun op hop => ?_
    simp only [List.mem_cons, List.not_mem_nil, or_false] at hop
    rcases hop with rfl | rfl | rfl <;> trivial
  have hok : (Assembler.assemble {} Program.spin 0x1000).1 = .ok () := by decide +kernel
  exact Assembler.assemble_assembles hp (Prod.ext hok rfl)

end X86Asm
