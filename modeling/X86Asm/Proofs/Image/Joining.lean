import X86Asm.Proofs.Image.Consistency
import X86Asm.Proofs.Image.Divergence
import X86Asm.Proofs.Layout.Embedding

/-!
# Assembling in parts

A program that is made of two others, neither of which refers to labels of the other, has the code
of the one and behind it that of the other, assembled for where it comes to stand. Labels have the
addresses that they have in their parts, and the relocation table is made of those of the parts
(`Assembler.assemble_joins`).

The layouts agree (`Program.Joins.samePlaces`), and a piece depends on nothing but its place and the
addresses of the labels that its node refers to (`Blueprint.SameAt.exists_pieceOf`).
-/

namespace X86Asm

variable {part whole first second : Program} {base base' : UInt64} {limits limits' : Limits}
  {previous previous' : Option Layout} {layout layout' : Layout} {walk walk' : Nat → Walk}
  {extent extent' : Nat → Extent} {node : Node} {place place' : Placement} {piece : Piece}
  {pieces pieces' : List Piece} {image image' : Image} {l : Label} {b b' : Blueprint}
  {d i k n n' : Nat}

/-! ## What it is to join images -/

/-- The entry of a field with so many bytes more in front. -/
def Relocation.advance (n : Nat) (r : Relocation) : Relocation :=
  { r with offset := r.offset + UInt64.ofNat n }

/-- An image consists of another one and of a further one that starts where that ends. -/
structure Image.Joins (first second whole : Image) : Prop where
  base_eq : whole.base = first.base
  base_second : second.base = first.base + UInt64.ofNat first.size
  code_eq : whole.code = first.code ++ second.code
  label_iff : ∀ l target, whole.labels.find? l = some target ↔
    first.labels.find? l = some target ∨ second.labels.find? l = some target
  relocations_eq : whole.relocations =
    first.relocations ++ second.relocations.map (Relocation.advance first.size)

/-- Without bytes in front an entry stays. -/
theorem Relocation.advance_zero : Relocation.advance 0 = id := by
  funext r
  simp [advance]

/-! ## The piece of a node -/

/-- The bytes of a piece, and its entry with so many bytes more in front. -/
def Piece.advance (n : Nat) (piece : Piece) : List UInt8 × Option Relocation :=
  (piece.bytes, piece.relocation.map (Relocation.advance n))

namespace Blueprint

/-- A node has the same place in both blueprints, which in the second has so many bytes more in
front, and the labels that it refers to have the same addresses. -/
structure SameAt (b b' : Blueprint) (n : Nat) (place place' : Placement) (node : Node) : Prop where
  mode_eq : b'.program.mode = b.program.mode
  flags_eq : ∀ s, node = .sectionStart s →
    b'.program.sectionFlags? s = b.program.sectionFlags? s
  label_eq : ∀ l ∈ node.references, b'.addresses.find? l = b.addresses.find? l
  address_eq : place'.address = place.address
  length_eq : place'.length = place.length
  padding_eq : place'.padding = place.padding
  offset_eq : b'.offset place' = b.offset place + n

namespace SameAt

/-- An instruction of the part has the same encoding in the whole. -/
theorem encode_eq_ok {instr : Instruction} {encoded : Encoded}
    (h : b.SameAt b' n place place' (.instruction instr)) (near : Bool)
    (hencode : instr.encode b.program.mode { b.context place with near } = .ok encoded) :
    b'.encode instr { b'.context place' with near } = .ok encoded := by
  have hlabel (l : Label) (hl : instr.label? = some l) :
      b'.addresses.find? l = b.addresses.find? l :=
    h.label_eq l (by simp [Node.references, hl])
  have hsame : instr.encode b'.program.mode { b'.context place' with near } =
      instr.encode b.program.mode { b.context place with near } := by
    unfold context
    rw [h.mode_eq, h.address_eq]
    exact Instruction.encode_congr { b.context place with near } hlabel
  unfold Blueprint.encode
  rw [hsame, hencode]
  rfl

/-- An instruction of the part has the same encoding at its length in the whole. -/
theorem encodeAt_eq_ok {instr : Instruction} {encoded : Encoded}
    (h : b.SameAt b' n place place' (.instruction instr))
    (hencoded : b.encodeAt place instr = .ok encoded) :
    b'.encodeAt place' instr = .ok encoded := by
  obtain ⟨first, hfirst, hchoice⟩ := Blueprint.encodeAt_eq_ok hencoded
  refine bind_eq_ok_iff.mpr ⟨first, h.encode_eq_ok false hfirst, ?_⟩
  rw [h.length_eq]
  rcases hchoice with ⟨hle, rfl⟩ | ⟨hlt, hnear⟩
  · exact if_neg (Nat.not_lt.mpr hle)
  · rw [if_pos hlt]
    exact h.encode_eq_ok true hnear

/-- A label that a node of the part refers to has the same address in the whole. -/
theorem resolve_eq_ok {address : UInt64} (h : b.SameAt b' n place place' node)
    (hl : l ∈ node.references) (haddress : b.resolve l = .ok address) :
    b'.resolve l = .ok address := by
  rw [Blueprint.resolve_eq_ok] at haddress ⊢
  rw [h.label_eq l hl, haddress]

/-- A field of the part has so many bytes more in front of it in the whole. -/
theorem offset_eq_add (h : b.SameAt b' n place place' node) (k : Nat) :
    UInt64.ofNat (b'.offset place' + k) = UInt64.ofNat (b.offset place + k) + UInt64.ofNat n := by
  rw [h.offset_eq, Nat.add_right_comm, UInt64.ofNat_add]

/-- The piece of an instruction is the same with so many bytes more in front. -/
theorem exists_instructionPiece {instr : Instruction}
    (h : b.SameAt b' n place place' (.instruction instr))
    (hpiece : b.instructionPiece place instr = .ok piece) :
    ∃ piece', b'.instructionPiece place' instr = .ok piece' ∧
      piece'.advance 0 = piece.advance n := by
  obtain ⟨encoded, hencoded, hpiece⟩ := bind_eq_ok_iff.mp hpiece
  cases hpiece
  refine ⟨_, bind_eq_ok_iff.mpr ⟨encoded, h.encodeAt_eq_ok hencoded, rfl⟩, ?_⟩
  cases encoded.fixup with
  | none => rfl
  | some f => simp [Piece.advance, Relocation.advance, h.offset_eq_add]

/-- The piece of an address is the same with so many bytes more in front. -/
theorem exists_addressPiece {size : UInt8} (h : b.SameAt b' n place place' (.address l size))
    (hpiece : b.addressPiece place l size = .ok piece) :
    ∃ piece', b'.addressPiece place' l size = .ok piece' ∧
      piece'.advance 0 = piece.advance n := by
  obtain ⟨target, htarget, hpiece⟩ := bind_eq_ok_iff.mp hpiece
  have htarget' := h.resolve_eq_ok (List.mem_singleton_self l) htarget
  have hoffset := h.offset_eq_add 0
  unfold addressPiece
  rw [htarget', h.mode_eq]
  split at hpiece
  · rename_i hfits
    cases hpiece
    refine ⟨_, if_pos hfits, ?_⟩
    simpa [Piece.advance, Relocation.advance] using hoffset
  · cases hpiece

/-- The piece of a difference is the same with so many bytes more in front. -/
theorem exists_differencePiece {relativeTo : Label} {width : Width}
    (h : b.SameAt b' n place place' (.difference l relativeTo width))
    (hpiece : b.differencePiece place l relativeTo width = .ok piece) :
    ∃ piece', b'.differencePiece place' l relativeTo width = .ok piece' ∧
      piece'.advance 0 = piece.advance n := by
  obtain ⟨target, htarget, hpiece⟩ := bind_eq_ok_iff.mp hpiece
  obtain ⟨origin, horigin, hpiece⟩ := bind_eq_ok_iff.mp hpiece
  cases hpiece
  have htarget' := h.resolve_eq_ok (List.mem_cons_self ..) htarget
  have horigin' := h.resolve_eq_ok (List.mem_cons_of_mem _ (List.mem_singleton_self _)) horigin
  have hoffset := h.offset_eq_add 0
  unfold differencePiece
  rw [htarget', horigin']
  refine ⟨_, rfl, ?_⟩
  simpa [Piece.advance, Relocation.advance] using hoffset

/-- A node adds the same to both images. -/
theorem exists_pieceOf (h : b.SameAt b' n place place' node)
    (hpiece : b.pieceOf place node = .ok piece) :
    ∃ piece', b'.pieceOf place' node = .ok piece' ∧ piece'.advance 0 = piece.advance n := by
  cases node with
  | instruction instr => exact h.exists_instructionPiece hpiece
  | address l size => exact h.exists_addressPiece hpiece
  | difference l relativeTo width => exact h.exists_differencePiece hpiece
  | label l | data payload =>
    cases hpiece
    exact ⟨_, rfl, rfl⟩
  | sectionStart s =>
    cases hpiece
    refine ⟨_, rfl, ?_⟩
    simp [Piece.advance, sectionPiece, h.flags_eq s rfl, h.padding_eq]
  | align alignment filler =>
    cases hpiece
    refine ⟨_, rfl, ?_⟩
    simp [Piece.advance, h.mode_eq, h.padding_eq]

end SameAt

end Blueprint

/-! ## The pieces of a part -/

/-- The labels that nodes refer to have places if assembling gets past the check for that. -/
theorem Program.Valid.closed {p : Program} (hp : p.Valid) (h : p.checkBound = .ok ()) :
    p.Closed := by
  intro node hnode l hl
  have hcheck := forM_eq_ok_iff.mp h l (List.mem_flatMap.mpr ⟨node, hnode, hl⟩)
  split at hcheck
  · exact hp.exists_label ‹_›
  · cases hcheck

section

variable (h : part.Embeds whole d) (hp : part.Valid) (hp' : whole.Valid) (hclosed : part.Closed)
  (harrival : (part.pass base limits previous).Arrival part.nodeList layout walk extent)
  (harrival' : (whole.pass base' limits' previous').Arrival whole.nodeList layout' walk' extent')
  (hsame : SamePlaces part.nodeList.length d walk walk' extent extent')

include h hp hp' harrival harrival' hsame

/-- The labels of a part have the addresses that they have in the whole. -/
theorem Program.Embeds.find?_addresses_eq (hi : part.nodeList[i]? = some (.label l)) :
    layout'.addresses.find? l = layout.addresses.find? l := by
  obtain ⟨hlt, -⟩ := List.getElem?_eq_some_iff.mp hi
  rw [harrival.find?_addresses_eq (part.pass_base_lt ..) hp.uniqueLabels hi,
    harrival'.find?_addresses_eq (whole.pass_base_lt ..) hp'.uniqueLabels (h.node hi),
    hsame.address i (Nat.le_of_lt hlt)]

include hclosed

/-- Each piece of a part is a piece of the whole. -/
theorem Program.Embeds.getElem?_pieces {x : List UInt8 × Option Relocation}
    (hpart : Assembly part base limits image n previous layout pieces)
    (hwhole : Assembly whole base' limits' image' n' previous' layout' pieces')
    (hbase : base.toNat = base'.toNat + k) (hi : (pieces.map (Piece.advance k))[i]? = some x) :
    (pieces'.map (Piece.advance 0))[d + i]? = some x := by
  rw [List.getElem?_map] at hi
  obtain ⟨piece, hpiece, rfl⟩ := Option.map_eq_some_iff.mp hi
  obtain ⟨hlength, hall⟩ := hpart.piece harrival
  obtain ⟨-, hall'⟩ := hwhole.piece harrival'
  obtain ⟨hlt, -⟩ := List.getElem?_eq_some_iff.mp hpiece
  rw [hlength] at hlt
  have hn := List.getElem?_eq_getElem hlt
  generalize part.nodeList[i] = node at hn
  obtain ⟨_, hi, -, hok⟩ := hall i node hn
  obtain rfl := Option.some.inj (hpiece.symm.trans hi)
  obtain ⟨piece', hi', -, hok'⟩ := hall' (d + i) node (h.node hn)
  -- the node stands in the whole as in the part, `k` bytes further on
  have hat : Blueprint.SameAt ⟨part, base, layout.addresses⟩ ⟨whole, base', layout'.addresses⟩ k
      ⟨(walk i).address, (extent i).length, (extent i).padding, (walk i).slack⟩
      ⟨(walk' (d + i)).address, (extent' (d + i)).length, (extent' (d + i)).padding,
        (walk' (d + i)).slack⟩ node := by
    have haddress := hsame.address i (Nat.le_of_lt hlt)
    have hextent := hsame.extent i hlt
    refine ⟨h.mode_eq, ?_, ?_, haddress, ?_, ?_, ?_⟩
    · rintro s rfl
      exact (h.sections s (List.mem_of_getElem? hn)).2
    · intro l hl
      obtain ⟨j, hj⟩ := hclosed node (List.mem_of_getElem? hn) l hl
      exact h.find?_addresses_eq hp hp' harrival harrival' hsame hj
    · exact congrArg Extent.length hextent
    · exact congrArg Extent.padding hextent
    · have hle : base.toNat ≤ (walk i).address := harrival.trace.base_le (Nat.le_of_lt hlt)
      show (walk' (d + i)).address - base'.toNat = (walk i).address - base.toNat + k
      omega
  obtain ⟨piece'', hok'', hadvance⟩ := hat.exists_pieceOf hok
  obtain rfl := Except.ok.inj (hok'.symm.trans hok'')
  rw [List.getElem?_map, hi', Option.map_some, hadvance]

end

/-! ## The image -/

/-- A list is made of two others if it has their elements and no more. -/
theorem eq_append_of_getElem? {α : Type} {xs ys zs : List α}
    (hlength : zs.length = xs.length + ys.length)
    (hleft : ∀ (i : Nat) (x : α), xs[i]? = some x → zs[0 + i]? = some x)
    (hright : ∀ (i : Nat) (y : α), ys[i]? = some y → zs[xs.length + i]? = some y) :
    zs = xs ++ ys := by
  refine (List.ext_getElem? fun i => ?_).symm
  rcases Nat.lt_or_ge i xs.length with hlt | hge
  · rw [List.getElem?_append_left hlt, List.getElem?_eq_getElem hlt,
      ← hleft i _ (List.getElem?_eq_getElem hlt), Nat.zero_add]
  · obtain ⟨k, rfl⟩ := Nat.exists_eq_add_of_le hge
    rw [List.getElem?_append_right hge, Nat.add_sub_cancel_left]
    rcases Nat.lt_or_ge k ys.length with hlt | hge
    · rw [List.getElem?_eq_getElem hlt, ← hright k _ (List.getElem?_eq_getElem hlt)]
    · rw [List.getElem?_eq_none hge, List.getElem?_eq_none (by omega)]

/-- The entries of the pieces go back by as many bytes as there are in front. -/
theorem Piece.filterMap_advance (n : Nat) (pieces : List Piece) :
    (pieces.map (Piece.advance n)).filterMap (·.2) =
      (pieces.filterMap (·.relocation)).map (Relocation.advance n) := by
  rw [List.filterMap_map, List.map_filterMap]
  rfl

section

variable {base₂ : UInt64} {limits₁ limits₂ : Limits} {layout₁ layout₂ : Layout}
  {walk₁ walk₂ : Nat → Walk} {extent₁ extent₂ : Nat → Extent} {image₁ image₂ : Image}
  {pieces₁ pieces₂ : List Piece} {passes passes₁ passes₂ n₁ n₂ : Nat}
  {previous₁ previous₂ : Option Layout} (h : Program.Joins first second whole)
  (hp₁ : first.Valid) (hp₂ : second.Valid) (hp : whole.Valid)

include h hp₁ hp₂ hp

section

variable
  (harrival₁ : (first.pass base limits₁ previous₁).Arrival first.nodeList layout₁ walk₁ extent₁)
  (harrival₂ : (second.pass base₂ limits₂ previous₂).Arrival second.nodeList layout₂ walk₂ extent₂)
  (harrival : (whole.pass base limits previous).Arrival whole.nodeList layout walk extent)
  (hsame₁ : SamePlaces first.nodeList.length 0 walk₁ walk extent₁ extent)
  (hsame₂ : SamePlaces second.nodeList.length first.nodeList.length walk₂ walk extent₂ extent)

include harrival₁ harrival₂ harrival hsame₁ hsame₂

/-- The labels of the whole are those of its parts. -/
theorem Program.Joins.find?_addresses_iff (l : Label) (target : UInt64) :
    layout.addresses.find? l = some target ↔
      layout₁.addresses.find? l = some target ∨ layout₂.addresses.find? l = some target := by
  have hfirst {i : Nat} (hi : first.nodeList[i]? = some (.label l)) :=
    h.embeds_first.find?_addresses_eq hp₁ hp harrival₁ harrival hsame₁ hi
  have hsecond {i : Nat} (hi : second.nodeList[i]? = some (.label l)) :=
    h.embeds_second.find?_addresses_eq hp₂ hp harrival₂ harrival hsame₂ hi
  constructor
  · intro hl
    obtain ⟨i, hi, -⟩ :=
      (harrival.find?_addresses_iff (whole.pass_base_lt ..) hp.uniqueLabels _ _).mp hl
    have hmem := List.mem_of_getElem? hi
    rw [h.nodeList_eq, List.mem_append] at hmem
    -- the marker is in one of the parts, where the label has the same address
    rcases hmem with hmem | hmem
    all_goals obtain ⟨j, hj⟩ := List.mem_iff_getElem?.mp hmem
    · exact .inl (hfirst hj ▸ hl)
    · exact .inr (hsecond hj ▸ hl)
  · rintro (hl | hl)
    · obtain ⟨i, hi, -⟩ :=
        (harrival₁.find?_addresses_iff (first.pass_base_lt ..) hp₁.uniqueLabels _ _).mp hl
      rw [hfirst hi, hl]
    · obtain ⟨i, hi, -⟩ :=
        (harrival₂.find?_addresses_iff (second.pass_base_lt ..) hp₂.uniqueLabels _ _).mp hl
      rw [hsecond hi, hl]

/-- The pieces of the whole are those of its parts. -/
theorem Program.Joins.pieces_eq (hclosed₁ : first.Closed) (hclosed₂ : second.Closed)
    (hassembly₁ : Assembly first base limits₁ image₁ n₁ previous₁ layout₁ pieces₁)
    (hassembly₂ : Assembly second base₂ limits₂ image₂ n₂ previous₂ layout₂ pieces₂)
    (hassembly : Assembly whole base limits image n previous layout pieces)
    (hbase₂ : base₂.toNat = base.toNat + k) :
    pieces.map (Piece.advance 0) =
      pieces₁.map (Piece.advance 0) ++ pieces₂.map (Piece.advance k) := by
  obtain ⟨hlength₁, -⟩ := hassembly₁.piece harrival₁
  obtain ⟨hlength₂, -⟩ := hassembly₂.piece harrival₂
  obtain ⟨hlength, -⟩ := hassembly.piece harrival
  refine eq_append_of_getElem? ?_ (fun i x hi => ?_) fun i x hi => ?_
  · rw [List.length_map, List.length_map, List.length_map, hlength₁, hlength₂, hlength,
      h.nodeList_eq, List.length_append]
  · exact h.embeds_first.getElem?_pieces hp₁ hp hclosed₁ harrival₁ harrival hsame₁ hassembly₁
      hassembly rfl hi
  · rw [List.length_map, hlength₁]
    exact h.embeds_second.getElem?_pieces hp₂ hp hclosed₂ harrival₂ harrival hsame₂ hassembly₂
      hassembly hbase₂ hi

end

/-- The image of the whole consists of the images of the parts. -/
theorem Program.joins_of_ok (hroom : whole.Room base)
    (hfirst : first.assemble base limits₁ = (.ok image₁, passes₁))
    (hsecond : second.assemble (base + UInt64.ofNat image₁.size) limits₂ = (.ok image₂, passes₂))
    (hwhole : whole.assemble base limits = (.ok image, passes)) : image₁.Joins image₂ image := by
  have hclosed₁ := hp₁.closed (checkBound_of_ok hfirst)
  have hclosed₂ := hp₂.closed (checkBound_of_ok hsecond)
  obtain ⟨_, _, layout₁, pieces₁, hassembly₁, -⟩ := assemble_eq_ok hfirst
  obtain ⟨_, _, layout₂, pieces₂, hassembly₂, -⟩ := assemble_eq_ok hsecond
  obtain ⟨_, _, layout, pieces, hassembly, -⟩ := assemble_eq_ok hwhole
  obtain ⟨walk₁, extent₁, harrival₁⟩ := Pass.exists_arrival hassembly₁.run_eq
  obtain ⟨walk₂, extent₂, harrival₂⟩ := Pass.exists_arrival hassembly₂.run_eq
  obtain ⟨walk, extent, harrival⟩ := Pass.exists_arrival hassembly.run_eq
  -- the second part starts where the first one ends
  have hend := hassembly₁.address_end hp₁ harrival₁
  have hbase₂ : (base + UInt64.ofNat image₁.size).toNat = base.toNat + image₁.size := by
    have hlt := harrival₁.trace.address_lt (first.pass_base_lt ..) (Nat.le_refl _)
    rw [hend] at hlt
    rw [UInt64.toNat_add, UInt64.toNat_ofNat_of_lt' (Nat.lt_of_le_of_lt (Nat.le_add_left ..) hlt)]
    exact Nat.mod_eq_of_lt hlt
  obtain ⟨hsame₁, hsame₂⟩ := h.samePlaces hp₁ hp₂ hp hclosed₁ hclosed₂ hroom
    ⟨hassembly₁.relaxing, harrival₁, hassembly₁.settled⟩
    ⟨hassembly₂.relaxing, harrival₂, hassembly₂.settled⟩
    ⟨hassembly.relaxing, harrival, hassembly.settled⟩ (hend.trans hbase₂.symm)
  have hlabels :=
    h.find?_addresses_iff hp₁ hp₂ hp harrival₁ harrival₂ harrival hsame₁ hsame₂
  have hpieces := h.pieces_eq hp₁ hp₂ hp harrival₁ harrival₂ harrival hsame₁ hsame₂ hclosed₁
    hclosed₂ hassembly₁ hassembly₂ hassembly hbase₂
  obtain rfl := hassembly₁.image_eq
  obtain rfl := hassembly₂.image_eq
  obtain rfl := hassembly.image_eq
  refine ⟨rfl, rfl, ?_, hlabels, ?_⟩
  · have hcode := congrArg (List.flatMap Prod.fst) hpieces
    simp only [List.flatMap_append, List.flatMap_map] at hcode
    exact hcode
  · have hentries := Piece.filterMap_advance 0 pieces
    rw [hpieces, List.filterMap_append, Piece.filterMap_advance, Piece.filterMap_advance,
      Relocation.advance_zero, List.map_id, List.map_id] at hentries
    exact hentries.symm

end

/-- **Joining.** Let a program have the nodes of one program and behind them those of another,
neither of which refers to labels of the other, and let there be room for it at a base. If the first
part is assembled at the base, the second one where the first one ends, and the whole at the base,
then the code of the whole is that of the parts, its labels have the addresses that they have in the
parts, and its relocations are those of the parts, with the code of the first one in front of those
of the second. The three assemblers may have different limits.

That a part refers only to labels of its own need not be asked for, as it could not be assembled
otherwise, and that no label is placed in both parts follows from the whole being reachable. -/
theorem Assembler.assemble_joins {a₁ a₂ a a₁' a₂' a' : Assembler} (hp₁ : first.Reachable)
    (hp₂ : second.Reachable) (hp : whole.Reachable) (h : Program.Joins first second whole)
    (hroom : whole.Room base) (hfirst : a₁.assemble first base = (.ok (), a₁'))
    (hsecond : a₂.assemble second (base + UInt64.ofNat a₁'.image.size) = (.ok (), a₂'))
    (hwhole : a.assemble whole base = (.ok (), a')) : a₁'.image.Joins a₂'.image a'.image := by
  obtain ⟨_, _, himage₁, rfl⟩ := assemble_eq_ok hfirst
  obtain ⟨_, _, himage₂, rfl⟩ := assemble_eq_ok hsecond
  obtain ⟨_, _, himage, rfl⟩ := assemble_eq_ok hwhole
  exact Program.joins_of_ok h hp₁.valid hp₂.valid hp.valid hroom himage₁ himage₂ himage

/-- A section with the address of its start, and a jump to it. -/
def Program.pointerLoop : Program :=
  [.createLabel, .createLabel, .createLabel, .createSection ".ptr" .read 8,
    .emit (.sectionStart ⟨0⟩), .emit (.label ⟨2⟩), .emit (.address ⟨2⟩ 8),
    .emit (.instruction ⟨.jmp, [.label ⟨2⟩]⟩)].foldl Operation.apply (Program.empty .long64)

/-- The nodes of `lowLoop` and those of `pointerLoop`. -/
def Program.lowPointerLoop : Program :=
  [.createLabel, .createLabel, .createLabel, .createSection ".ptr" .read 8,
    .emit (.instruction ⟨.jmp, [.label ⟨1⟩]⟩), .emit (.label ⟨0⟩), .emit (.align 4 .code),
    .emit (.align 4 .code), .emit (.instruction ⟨.jmp, [.label ⟨0⟩]⟩), .emit (.label ⟨1⟩),
    .emit (.sectionStart ⟨0⟩), .emit (.label ⟨2⟩), .emit (.address ⟨2⟩ 8),
    .emit (.instruction ⟨.jmp, [.label ⟨2⟩]⟩)].foldl Operation.apply (Program.empty .long64)

/-- The second loop is put together by operations. -/
theorem Program.reachable_pointerLoop : Program.pointerLoop.Reachable := by
  refine Program.reachable_foldl .long64 fun op hop => ?_
  simp only [List.mem_cons, List.not_mem_nil, or_false] at hop
  rcases hop with rfl | rfl | rfl | rfl | rfl | rfl | rfl | rfl <;> trivial

/-- Both loops are put together by operations. -/
theorem Program.reachable_lowPointerLoop : Program.lowPointerLoop.Reachable := by
  refine Program.reachable_foldl .long64 fun op hop => ?_
  simp only [List.mem_cons, List.not_mem_nil, or_false] at hop
  rcases hop with rfl | rfl | rfl | rfl | rfl | rfl | rfl | rfl | rfl | rfl | rfl | rfl | rfl |
    rfl <;> trivial

/-- The two loops stand one behind the other. -/
theorem Program.joins_lowPointerLoop : Joins lowLoop pointerLoop lowPointerLoop := by
  have hlow : lowLoop.nodeList = [.instruction ⟨.jmp, [.label ⟨1⟩]⟩, .label ⟨0⟩, .align 4 .code,
      .align 4 .code, .instruction ⟨.jmp, [.label ⟨0⟩]⟩, .label ⟨1⟩] := by decide +kernel
  have hpointer : pointerLoop.nodeList = [.sectionStart ⟨0⟩, .label ⟨2⟩, .address ⟨2⟩ 8,
      .instruction ⟨.jmp, [.label ⟨2⟩]⟩] := by decide +kernel
  refine ⟨by decide +kernel, by decide +kernel, fun p hp s hs => ?_⟩
  simp only [List.mem_cons, List.not_mem_nil, or_false] at hp
  rcases hp with rfl | rfl
  · simp [hlow] at hs
  · obtain rfl : s = ⟨0⟩ := by simpa [hpointer] using hs
    decide +kernel

/-- The second part stands behind a gap of two bytes. -/
theorem Assembler.joins_lowLoop :
    Program.lowLoop.Reachable ∧ Program.pointerLoop.Reachable ∧
      Program.lowPointerLoop.Reachable ∧
      Program.Joins Program.lowLoop Program.pointerLoop Program.lowPointerLoop ∧
      Program.lowPointerLoop.Room 0x1000 ∧
      ∃ first second whole, Assembler.assemble {} Program.lowLoop 0x1000 = (.ok (), first) ∧
        Assembler.assemble {} Program.pointerLoop 0x1006 = (.ok (), second) ∧
        Assembler.assemble {} Program.lowPointerLoop 0x1000 = (.ok (), whole) ∧
        first.image.code = [0xEB, 4, 0x66, 0x90, 0xEB, 0xFC] ∧
        second.image.code = [0, 0, 0x08, 0x10, 0, 0, 0, 0, 0, 0, 0xEB, 0xF6] ∧
        first.image.Joins second.image whole.image := by
  have hroom : Program.lowPointerLoop.Room 0x1000 := ⟨by decide +kernel, by decide +kernel⟩
  have hfirst : Assembler.assemble {} Program.lowLoop 0x1000 = (.ok (), _) :=
    Prod.ext (by decide +kernel) rfl
  have hwhole : Assembler.assemble {} Program.lowPointerLoop 0x1000 = (.ok (), _) :=
    Prod.ext (by decide +kernel) rfl
  obtain ⟨second, hsecond, hcode⟩ : ∃ a, Assembler.assemble {} Program.pointerLoop 0x1006 =
      (.ok (), a) ∧ a.image.code = [0, 0, 0x08, 0x10, 0, 0, 0, 0, 0, 0, 0xEB, 0xF6] :=
    ⟨_, Prod.ext (by decide +kernel) rfl, by decide +kernel⟩
  have hend : 0x1000 + UInt64.ofNat (Assembler.assemble {} Program.lowLoop 0x1000).2.image.size =
      0x1006 := by decide +kernel
  refine ⟨Program.reachable_lowLoop, Program.reachable_pointerLoop,
    Program.reachable_lowPointerLoop, Program.joins_lowPointerLoop, hroom, _, second, _, hfirst,
    hsecond, hwhole, by decide +kernel, hcode, ?_⟩
  rw [← hend] at hsecond
  exact Assembler.assemble_joins Program.reachable_lowLoop Program.reachable_pointerLoop
    Program.reachable_lowPointerLoop Program.joins_lowPointerLoop hroom hfirst hsecond hwhole

end X86Asm
