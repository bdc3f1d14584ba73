import X86Asm.Proofs.Image.Consistency
import X86Asm.Proofs.Layout.Lockstep

/-!
# Moving an image to another base

The relocation table is all that it takes to move an image. If a program is assembled at two bases
that have the same remainder for every alignment, and there is room around both, then the code at
the one is the code at the other with the distance added to the fields of the absolute relocations
(`Program.moves_of_ok`).

Both layouts are in lockstep, so each node has the same place in both images. What is left is to
see that a piece depends on addresses through nothing but the field at its end
(`Blueprint.moves_pieceOf`), and that the fields of the table are these.
-/

namespace X86Asm

variable {p : Program} {base base' : UInt64} {limits : Limits} {delta : Int} {mode : Mode}
  {ctx ctx' : Context} {e e' : Encoded} {pieces pieces' : List Piece} {piece piece' : Piece}
  {place place' : Placement} {offset : Nat}

/-! ## What it is to move -/

/-- An address comes to another one by a distance. -/
def MovesBy (delta : Int) (address address' : UInt64) : Prop :=
  (address'.toNat : Int) = address.toNat + delta

/-- What the distance adds to the value of a field. -/
def FixupKind.shift (delta : Int) : FixupKind → Int
  | .absolute => delta
  | .relative => 0

/-- Adds the distance to the field of an absolute relocation, and cuts off what does not fit. -/
def Relocation.apply (delta : Int) (code : List UInt8) (r : Relocation) : List UInt8 :=
  match r.kind with
  | .relative => code
  | .absolute =>
    let field := (code.drop r.offset.toNat).take r.size.toNat
    code.take r.offset.toNat ++ littleEndian r.size.toNat (ofLittleEndian field + delta) ++
      code.drop (r.offset.toNat + r.size.toNat)

/-- A section comes to another address. -/
structure PlacedSection.Moves (delta : Int) (s s' : PlacedSection) : Prop where
  address : MovesBy delta s.address s'.address
  eq_with : s' = { s with address := s'.address }

/-- An image comes to another base, with no need for more than its relocations. -/
structure Image.Moves (delta : Int) (image image' : Image) : Prop where
  size_eq : image'.size = image.size
  code_eq : image'.code = image.relocations.foldl (Relocation.apply delta) image.code
  relocations_eq : image'.relocations = image.relocations
  sections : List.Forall₂ (PlacedSection.Moves delta) image.sections image'.sections
  labels : ∀ l, Option.Rel (MovesBy delta) (image.labels.find? l) (image'.labels.find? l)

/-! ## Instructions -/

/-- Encodings of an instruction in two places differ in the field at the end only. -/
structure Encoded.Moves (delta : Int) (e e' : Encoded) : Prop where
  fixup_eq : e'.fixup = e.fixup
  bytes_eq : e.fixup = none → e'.bytes = e.bytes
  field : ∀ f, e.fixup = some f → f.width ≤ 4 ∧ ∃ lead v, lead.length = f.offset ∧
    e.bytes = lead ++ littleEndian f.width v ∧
      e'.bytes = lead ++ littleEndian f.width (v + f.kind.shift delta)

/-- No instruction has a label field of more than four bytes. -/
theorem Template.width_of_settle {i : Instruction} {t : Template} {lead : List UInt8}
    {field : LabelField} (ht : i.template mode = .ok t) (h : t.settle ctx = (lead, some field)) :
    field.width ≤ 4 := by
  cases i.shape_template ht with
  | fixed bytes => cases h
  | @labelled lead m =>
    cases h
    exact m.width_addressing_le mode _
  | @branch b _ hwidth _ =>
    have hnear : b.nearWidth ≤ 4 := by
      rw [hwidth]
      cases mode <;> decide
    unfold settle at h
    simp only at h
    split at h
    · split at h
      · cases h
        exact Nat.le_of_ble_eq_true rfl
      · cases h
        exact hnear
    · cases h
      exact hnear

section

variable (hctx : ctx.strict) (hctx' : ctx'.strict)
  (haddress : MovesBy delta ctx.address ctx'.address)
  (hresolve : ∀ l, Option.Rel (MovesBy delta) (ctx.resolve l) (ctx'.resolve l))

include hctx hctx' haddress hresolve

/-- In two places a field is filled with values that are apart by the distance, if it is absolute.
-/
theorem LabelField.moves_fill {lead : List UInt8} {field : LabelField} (hwidth : field.width ≤ 4)
    (h : field.fill mode ctx lead = .ok e) (h' : field.fill mode ctx' lead = .ok e') :
    e.Moves delta e' := by
  obtain ⟨target, htarget, -, hbytes, hfixup⟩ := fill_eq_ok hctx h
  obtain ⟨target', htarget', -, hbytes', hfixup'⟩ := fill_eq_ok hctx' h'
  have htargets := hresolve field.label
  rw [htarget, htarget'] at htargets
  cases htargets with
  | some htargets =>
    have hvalue : field.value ctx' e'.bytes.length target' =
        field.value ctx e.bytes.length target + field.kind.shift delta := by
      rw [length_of_fill h, length_of_fill h']
      -- a relative value loses with the address what it gains with the target
      unfold MovesBy at htargets haddress
      unfold value FixupKind.shift
      cases field.kind <;> simp only <;> omega
    refine ⟨hfixup'.trans hfixup.symm, fun hnone => ?_, fun f hf => ?_⟩
    · rw [hfixup] at hnone
      cases hnone
    · obtain rfl := Option.some.inj (hfixup.symm.trans hf)
      exact ⟨hwidth, lead, _, rfl, hbytes, hvalue ▸ hbytes'⟩

/-- In two places an instruction differs in its label field at most. -/
theorem Instruction.moves_encode {i : Instruction} (h : i.encode mode ctx = .ok e)
    (h' : i.encode mode ctx' = .ok e') (hlength : e.bytes.length = e'.bytes.length) :
    e.Moves delta e' := by
  obtain ⟨t, ht, hfill⟩ := encode_eq_ok h
  obtain ⟨t', ht', hfill'⟩ := encode_eq_ok h'
  obtain rfl := Except.ok.inj (ht.symm.trans ht')
  rw [length_of_encode ht h, length_of_encode ht h'] at hlength
  have hsettle := Template.settle_congr ht hlength
  unfold Template.fill at hfill hfill'
  rw [← hsettle] at hfill'
  rcases hs : t.settle ctx with ⟨lead, _ | field⟩
  · rw [hs] at hfill hfill'
    cases hfill
    cases hfill'
    exact ⟨rfl, fun _ => rfl, nofun⟩
  · rw [hs] at hfill hfill'
    exact LabelField.moves_fill hctx hctx' haddress hresolve (Template.width_of_settle ht hs) hfill
      hfill'

end

/-! ## Pieces -/

/-- Pieces of a node in two images, at the same offset. -/
structure Piece.Moves (delta : Int) (offset : Nat) (piece piece' : Piece) : Prop where
  length_eq : piece'.bytes.length = piece.bytes.length
  relocation_eq : piece'.relocation = piece.relocation
  opened : Option.Rel (PlacedSection.Moves delta) piece.opened piece'.opened
  bytes_eq : piece.relocation = none → piece'.bytes = piece.bytes
  field : ∀ r, piece.relocation = some r → ∃ lead v, r.offset.toNat = offset + lead.length ∧
    piece.bytes = lead ++ littleEndian r.size.toNat v ∧
      piece'.bytes = lead ++ littleEndian r.size.toNat (v + r.kind.shift delta)

/-- Pieces of nodes in a row. -/
abbrev Piece.MoveAll (delta : Int) : Nat → List Piece → List Piece → Prop :=
  InRow fun offset piece piece' => piece.Moves delta offset piece'

/-- Applying a relocation changes the value of its field. -/
theorem Relocation.apply_append (r : Relocation) {front lead : List UInt8}
    (hoffset : r.offset.toNat = front.length + lead.length) (v : Int) (rest : List UInt8) :
    r.apply delta (front ++ (lead ++ littleEndian r.size.toNat v ++ rest)) =
      front ++ (lead ++ littleEndian r.size.toNat (v + r.kind.shift delta) ++ rest) := by
  unfold apply FixupKind.shift
  cases r.kind with
  | relative => simp only [Int.add_zero]
  | absolute =>
    -- the field starts behind `lead` and is as long as the relocation says
    have hlead : (front ++ lead).length = r.offset.toNat := by rw [List.length_append, hoffset]
    have hfield := length_littleEndian r.size.toNat v
    have hvalue : littleEndian r.size.toNat (v % 256 ^ r.size.toNat + delta) =
        littleEndian r.size.toNat (v + delta) :=
      littleEndian_congr ((Int.mod_modEq _ _).add_right delta)
    simp only [List.append_assoc]
    rw [← List.append_assoc front lead, List.take_left' hlead, List.drop_left' hlead,
      List.take_left' hfield, ← List.drop_drop, List.drop_left' hlead, List.drop_left' hfield,
      ofLittleEndian_littleEndian, hvalue, List.append_assoc]

namespace Piece.MoveAll

/-- Applying the relocations to the pieces of one image gives those of the other. -/
theorem code_eq (h : MoveAll delta offset pieces pieces') (front : List UInt8)
    (hfront : front.length = offset) :
    (pieces.filterMap (·.relocation)).foldl (Relocation.apply delta)
        (front ++ pieces.flatMap (·.bytes)) =
      front ++ pieces'.flatMap (·.bytes) := by
  induction h generalizing front with
  | nil => rfl
  | @cons offset piece piece' pieces pieces' hpiece _ ih =>
    -- the pieces in front have moved already
    have hnext := ih (front ++ piece'.bytes)
      (by rw [List.length_append, hfront, hpiece.length_eq])
    rw [List.append_assoc, List.append_assoc] at hnext
    rw [List.flatMap_cons, List.flatMap_cons, ← hnext]
    cases hr : piece.relocation with
    | none => rw [List.filterMap_cons_none hr, hpiece.bytes_eq hr]
    | some r =>
      obtain ⟨lead, v, hoffset, hbytes, hbytes'⟩ := hpiece.field r hr
      rw [List.filterMap_cons_some hr, List.foldl_cons, hbytes, hbytes',
        Relocation.apply_append r (by rw [hoffset, hfront])]

/-- Both images have the same relocations. -/
theorem relocations_eq (h : MoveAll delta offset pieces pieces') :
    pieces'.filterMap (·.relocation) = pieces.filterMap (·.relocation) := by
  induction h with
  | nil => rfl
  | cons hpiece _ ih => simp [List.filterMap_cons, hpiece.relocation_eq, ih]

/-- Both images have as many bytes. -/
theorem length_eq (h : MoveAll delta offset pieces pieces') :
    (pieces'.flatMap (·.bytes)).length = (pieces.flatMap (·.bytes)).length := by
  induction h with
  | nil => rfl
  | cons hpiece _ ih =>
    rw [List.flatMap_cons, List.flatMap_cons, List.length_append, List.length_append,
      hpiece.length_eq, ih]

/-- Both images open the same sections, at addresses that are apart by the distance. -/
theorem opened (h : MoveAll delta offset pieces pieces') :
    List.Forall₂ (PlacedSection.Moves delta) (pieces.filterMap (·.opened))
      (pieces'.filterMap (·.opened)) := by
  induction h with
  | nil => exact .nil
  | @cons _ piece piece' _ _ hpiece _ ih =>
    have hopened := hpiece.opened
    cases ho : piece.opened <;> cases ho' : piece'.opened <;> rw [ho, ho'] at hopened
    · rwa [List.filterMap_cons_none ho, List.filterMap_cons_none ho']
    · cases hopened
    · cases hopened
    · cases hopened with
      | some hopened =>
        rw [List.filterMap_cons_some ho, List.filterMap_cons_some ho']
        exact .cons hopened ih

end Piece.MoveAll

/-! ## The piece of a node -/

/-- Places of a node in layouts at two bases. -/
structure Placement.Moves (base base' : UInt64) (place place' : Placement) : Prop where
  length_eq : place'.length = place.length
  padding_eq : place'.padding = place.padding
  padding_le : place.padding ≤ place.length
  base_le : base.toNat ≤ place.address
  address : place.address + base'.toNat = place'.address + base.toNat
  lt : place.address + place.length < addressSpace
  lt' : place'.address + place'.length < addressSpace

/-- A node has the same offset in both images. -/
theorem Placement.Moves.offset_eq (h : place.Moves base base' place') :
    place'.address - base'.toNat = place.address - base.toNat := by
  have := h.base_le
  have := h.address
  omega

/-- Addresses that are apart as numbers are so as words. -/
theorem movesBy_ofNat {n n' : Nat} (h : n + base'.toNat = n' + base.toNat) (hn : n < addressSpace)
    (hn' : n' < addressSpace) :
    MovesBy (base'.toNat - base.toNat) (UInt64.ofNat n) (UInt64.ofNat n') := by
  unfold MovesBy
  rw [UInt64.toNat_ofNat_of_lt' hn, UInt64.toNat_ofNat_of_lt' hn']
  omega

namespace Blueprint

section

variable {labels labels' : LabelTable UInt64} (hplace : place.Moves base base' place')
  (hlabels : ∀ l, Option.Rel (MovesBy (base'.toNat - base.toNat)) (labels.find? l)
    (labels'.find? l))

include hplace hlabels

/-- The piece of an instruction moves with the base. -/
theorem moves_instructionPiece {i : Instruction}
    (h : instructionPiece ⟨p, base, labels⟩ place i = .ok piece)
    (h' : instructionPiece ⟨p, base', labels'⟩ place' i = .ok piece')
    (hlength : piece.bytes.length = place.length)
    (hlength' : piece'.bytes.length = place'.length) :
    piece.Moves (base'.toNat - base.toNat) (place.address - base.toNat) piece' := by
  obtain ⟨encoded, hencoded, h⟩ := bind_eq_ok_iff.mp h
  obtain ⟨encoded', hencoded', h'⟩ := bind_eq_ok_iff.mp h'
  cases h
  cases h'
  obtain ⟨near, hencode⟩ := exists_encode_of_encodeAt hencoded
  obtain ⟨near', hencode'⟩ := exists_encode_of_encodeAt hencoded'
  have hsame := hlength.trans (hplace.length_eq.symm.trans hlength'.symm)
  have hlt := hplace.lt
  have hlt' := hplace.lt'
  have haddress := movesBy_ofNat hplace.address (by omega) (by omega)
  have hmoves : encoded.Moves (base'.toNat - base.toNat) encoded' := by
    refine Instruction.moves_encode ?_ ?_ ?_ ?_ hencode hencode' hsame
    · rfl
    · rfl
    · exact haddress
    · exact hlabels
  refine ⟨hsame.symm, ?_, .none, ?_, ?_⟩
  · simp only [hmoves.fixup_eq, Blueprint.offset, hplace.offset_eq]
  · exact fun hnone => hmoves.bytes_eq (Option.map_eq_none_iff.mp hnone)
  · intro r hr
    obtain ⟨f, hf, rfl⟩ := Option.map_eq_some_iff.mp hr
    obtain ⟨hwidth, lead, v, hlead, hbytes, hbytes'⟩ := hmoves.field f hf
    have hsize : (UInt8.ofNat f.width).toNat = f.width := by
      rw [UInt8.toNat_ofNat']
      omega
    -- the field is within the piece, so its offset is a word
    have hle : lead.length ≤ place.length := by
      rw [← hlength, hbytes, List.length_append]
      omega
    refine ⟨lead, v, ?_, hsize.symm ▸ hbytes, hsize.symm ▸ hbytes'⟩
    have hoffset : Blueprint.offset ⟨p, base, labels⟩ place + f.offset < addressSpace := by
      unfold Blueprint.offset
      simp only
      omega
    rw [UInt64.toNat_ofNat_of_lt' hoffset, hlead]
    rfl

/-- The piece of an address moves with the base. -/
theorem moves_addressPiece {l : Label} {size : UInt8}
    (h : addressPiece ⟨p, base, labels⟩ place l size = .ok piece)
    (h' : addressPiece ⟨p, base', labels'⟩ place' l size = .ok piece') :
    piece.Moves (base'.toNat - base.toNat) (place.address - base.toNat) piece' := by
  obtain ⟨target, htarget, h⟩ := bind_eq_ok_iff.mp h
  obtain ⟨target', htarget', h'⟩ := bind_eq_ok_iff.mp h'
  split at h
  · split at h'
    · cases h
      cases h'
      have htargets := hlabels l
      rw [resolve_eq_ok.mp htarget, resolve_eq_ok.mp htarget'] at htargets
      cases htargets with
      | some htargets =>
        have hoffset : place.address - base.toNat < addressSpace := by
          have := hplace.lt
          omega
        refine ⟨by simp, ?_, .none, nofun, ?_⟩
        · simp only [Blueprint.offset, hplace.offset_eq]
        · intro r hr
          cases hr
          refine ⟨[], target.toNat, UInt64.toNat_ofNat_of_lt' hoffset, rfl, ?_⟩
          exact congrArg (littleEndian size.toNat) htargets
    · cases h'
  · cases h

/-- The piece of a difference does not depend on the base. -/
theorem moves_differencePiece {l relativeTo : Label} {width : Width}
    (h : differencePiece ⟨p, base, labels⟩ place l relativeTo width = .ok piece)
    (h' : differencePiece ⟨p, base', labels'⟩ place' l relativeTo width = .ok piece') :
    piece.Moves (base'.toNat - base.toNat) (place.address - base.toNat) piece' := by
  obtain ⟨target, htarget, h⟩ := bind_eq_ok_iff.mp h
  obtain ⟨target', htarget', h'⟩ := bind_eq_ok_iff.mp h'
  obtain ⟨origin, horigin, h⟩ := bind_eq_ok_iff.mp h
  obtain ⟨origin', horigin', h'⟩ := bind_eq_ok_iff.mp h'
  cases h
  cases h'
  have htargets := hlabels l
  have horigins := hlabels relativeTo
  rw [resolve_eq_ok.mp htarget, resolve_eq_ok.mp htarget'] at htargets
  rw [resolve_eq_ok.mp horigin, resolve_eq_ok.mp horigin'] at horigins
  cases htargets with
  | some htargets =>
    cases horigins with
    | some horigins =>
      have hoffset : place.address - base.toNat < addressSpace := by
        have := hplace.lt
        omega
      have hsize : (UInt8.ofNat width.bytes).toNat = width.bytes := by cases width <;> rfl
      -- both labels move by the same distance
      have hdifference : (target'.toNat : Int) - origin'.toNat = target.toNat - origin.toNat := by
        unfold MovesBy at htargets horigins
        omega
      refine ⟨by simp, ?_, .none, nofun, ?_⟩
      · simp only [Blueprint.offset, hplace.offset_eq]
      · intro r hr
        cases hr
        refine ⟨[], (target.toNat : Int) - origin.toNat, UInt64.toNat_ofNat_of_lt' hoffset, ?_, ?_⟩
        · rw [hsize]
          exact littleEndian_sub width target origin
        · rw [hsize, ← hdifference, FixupKind.shift, Int.add_zero]
          exact littleEndian_sub width target' origin'

omit hlabels in
/-- The section that a piece opens moves with the base. -/
theorem moves_sectionPiece (s : Section) :
    (sectionPiece ⟨p, base, labels⟩ place s).Moves (base'.toNat - base.toNat)
      (place.address - base.toNat) (sectionPiece ⟨p, base', labels'⟩ place' s) := by
  have haddress := hplace.address
  have hpadding := hplace.padding_le
  have hlt := hplace.lt
  have hlt' := hplace.lt'
  have hlength := hplace.length_eq
  refine ⟨?_, rfl, .some ⟨?_, ?_⟩, fun _ => ?_, nofun⟩
  · simp [sectionPiece, hplace.padding_eq]
  · simp only [hplace.padding_eq]
    exact movesBy_ofNat (by omega) (by omega) (by omega)
  · simp only [Blueprint.offset, hplace.offset_eq, hplace.padding_eq]
  · simp [sectionPiece, hplace.padding_eq]

/-- The piece of a node depends on addresses through the field at its end only. -/
theorem moves_pieceOf {node : Node} (h : pieceOf ⟨p, base, labels⟩ place node = .ok piece)
    (h' : pieceOf ⟨p, base', labels'⟩ place' node = .ok piece')
    (hlength : piece.bytes.length = place.length)
    (hlength' : piece'.bytes.length = place'.length) :
    piece.Moves (base'.toNat - base.toNat) (place.address - base.toNat) piece' := by
  cases node with
  | instruction i => exact moves_instructionPiece hplace hlabels h h' hlength hlength'
  | address l size => exact moves_addressPiece hplace hlabels h h'
  | difference l relativeTo width => exact moves_differencePiece hplace hlabels h h'
  | sectionStart s =>
    cases h
    cases h'
    exact moves_sectionPiece hplace s
  | label l =>
    cases h
    cases h'
    exact ⟨rfl, rfl, .none, fun _ => rfl, nofun⟩
  | data payload =>
    cases h
    cases h'
    exact ⟨rfl, rfl, .none, fun _ => rfl, nofun⟩
  | align alignment filler =>
    cases h
    cases h'
    refine ⟨?_, rfl, .none, fun _ => ?_, nofun⟩
    · simp only [hplace.padding_eq]
    · simp only [hplace.padding_eq]

end

end Blueprint

/-! ## Tables -/

/-- A section that moves keeps its offset. -/
theorem PlacedSection.Moves.offset_eq {s s' : PlacedSection} (h : s.Moves delta s') :
    s'.offset = s.offset := by rw [h.eq_with]

/-- A section that moves keeps its padding. -/
theorem PlacedSection.Moves.padding_eq {s s' : PlacedSection} (h : s.Moves delta s') :
    s'.padding = s.padding := by rw [h.eq_with]

/-- A section that moves may be given another size. -/
theorem PlacedSection.Moves.resize {s s' : PlacedSection} (h : s.Moves delta s')
    {size size' : UInt64} (hsize : size' = size) :
    PlacedSection.Moves delta { s with size } { s' with size := size' } := by
  refine ⟨h.address, ?_⟩
  rw [h.eq_with, hsize]

/-- Sections that move have the same sizes. -/
theorem moves_closeSections (total : UInt64) {sections sections' : List PlacedSection}
    (h : List.Forall₂ (PlacedSection.Moves delta) sections sections') :
    List.Forall₂ (PlacedSection.Moves delta) (closeSections total sections)
      (closeSections total sections') := by
  induction h with
  | nil => exact .nil
  | cons hs hrest ih =>
    cases hrest with
    | nil => exact .cons (hs.resize (by rw [hs.offset_eq])) .nil
    | cons ht _ =>
      exact .cons (hs.resize (by rw [hs.offset_eq, ht.offset_eq, ht.padding_eq])) ih

namespace Pass

variable {previous previous' : Option Layout} {layout layout' : Layout} {walk walk' : Nat → Walk}
  {extent extent' : Nat → Extent}
  (h : (p.pass base limits previous).Arrival p.nodeList layout walk extent)
  (h' : (p.pass base' limits previous').Arrival p.nodeList layout' walk' extent')
  (heq : ∀ i < p.nodeList.length, extent i = extent' i)

include h h' heq

/-- In layouts with the same extents a node has the same place. -/
theorem Arrival.moves_placement {i : Nat} (hi : i < p.nodeList.length) :
    Placement.Moves base base'
      ⟨(walk i).address, (extent i).length, (extent i).padding, (walk i).slack⟩
      ⟨(walk' i).address, (extent' i).length, (extent' i).padding, (walk' i).slack⟩ := by
  obtain ⟨haddress, -⟩ := h.trace.shift h'.trace (Nat.le_of_lt hi) (Nat.le_of_lt hi)
    fun j hj => heq j (Nat.lt_trans hj hi)
  obtain ⟨node, hn⟩ := h.trace.node_eq hi
  have hlt := h.trace.address_lt (p.pass_base_lt base limits previous) hi
  have hlt' := h'.trace.address_lt (p.pass_base_lt base' limits previous') hi
  rw [h.trace.address_succ hi] at hlt
  rw [h'.trace.address_succ hi] at hlt'
  exact ⟨congrArg Extent.length (heq i hi).symm, congrArg Extent.padding (heq i hi).symm,
    padding_le_length (h.trace.extent_eq i node hi hn), h.trace.base_le (Nat.le_of_lt hi),
    haddress, hlt, hlt'⟩

/-- In layouts with the same extents the labels are the same distance from the base. -/
theorem Arrival.moves_addresses (hp : p.Valid) (l : Label) :
    Option.Rel (MovesBy (base'.toNat - base.toNat)) (layout.addresses.find? l)
      (layout'.addresses.find? l) := by
  rw [Layout.addresses, Layout.addresses, LabelTable.find?_map, LabelTable.find?_map]
  by_cases hplaced : ∃ i : Nat, p.nodeList[i]? = some (.label l)
  · obtain ⟨i, hi⟩ := hplaced
    obtain ⟨hlt, -⟩ := List.getElem?_eq_some_iff.mp hi
    have hplace := Arrival.moves_placement h h' heq hlt
    rw [(h.find?_marks_iff hp.uniqueLabels).mpr ⟨i, hi, rfl⟩,
      (h'.find?_marks_iff hp.uniqueLabels).mpr ⟨i, hi, rfl⟩]
    exact .some (movesBy_ofNat hplace.address
      (h.trace.address_lt (p.pass_base_lt base limits previous) (Nat.le_of_lt hlt))
      (h'.trace.address_lt (p.pass_base_lt base' limits previous') (Nat.le_of_lt hlt)))
  · -- a label that no node places has no address in either layout
    have hnone : layout.marks.find? l = none := Option.eq_none_iff_forall_not_mem.mpr
      fun mark hm => hplaced (by
        obtain ⟨i, hi, -⟩ := (h.find?_marks_iff hp.uniqueLabels).mp hm
        exact ⟨i, hi⟩)
    have hnone' : layout'.marks.find? l = none := Option.eq_none_iff_forall_not_mem.mpr
      fun mark hm => hplaced (by
        obtain ⟨i, hi, -⟩ := (h'.find?_marks_iff hp.uniqueLabels).mp hm
        exact ⟨i, hi⟩)
    rw [hnone, hnone']
    exact .none

end Pass

/-! ## The image -/

/-- Images of a program at two bases. -/
theorem Program.moves_of_ok {image image' : Image} {passes passes' : Nat} (hp : p.Valid)
    (hroom : p.Room base) (hroom' : p.Room base') (hcongr : p.Congruent base base')
    (h : p.assemble base limits = (.ok image, passes))
    (h' : p.assemble base' limits = (.ok image', passes')) :
    passes' = passes ∧ image.Moves (base'.toNat - base.toNat) image' := by
  obtain ⟨n, previous, layout, pieces, hassembly, rfl⟩ := assemble_eq_ok h
  obtain ⟨n', previous', layout', pieces', hassembly', rfl⟩ := assemble_eq_ok h'
  -- both have made the same passes, and the last one gives the same extents
  obtain rfl := Relaxing.eq_of_settled hp hroom hroom' hcongr hassembly.relaxing
    hassembly'.relaxing hassembly.run_eq hassembly'.run_eq hassembly.settled hassembly'.settled
  refine ⟨rfl, ?_⟩
  obtain ⟨walk, extent, harrival⟩ := Pass.exists_arrival hassembly.run_eq
  obtain ⟨walk', extent', harrival'⟩ := Pass.exists_arrival hassembly'.run_eq
  have hlock := hassembly.relaxing.lockstep hp hroom hroom' hcongr hassembly'.relaxing
  have heq : ∀ i < p.nodeList.length, extent i = extent' i := fun i hi =>
    Pass.Trace.extents_eq hp hroom hroom' hassembly.relaxing hassembly'.relaxing hlock
      harrival.trace harrival'.trace hcongr hi
  have hlabels := Pass.Arrival.moves_addresses harrival harrival' heq hp
  obtain ⟨hlength, hpiece⟩ := hassembly.piece harrival
  obtain ⟨hlength', hpiece'⟩ := hassembly'.piece harrival'
  -- the pieces are made at the same places, one behind the other
  have hmoves : Piece.MoveAll (base'.toNat - base.toNat) ((walk 0).address - base.toNat) pieces
      pieces' := by
    refine .of_getElem? (fun i => (walk i).address - base.toNat)
      (hlength.trans hlength'.symm) fun i piece piece' hi hi' => ?_
    obtain ⟨hlt, -⟩ := List.getElem?_eq_some_iff.mp hi
    rw [hlength] at hlt
    obtain ⟨node, hn⟩ := harrival.trace.node_eq hlt
    obtain ⟨_, hi₂, hlen, hok⟩ := hpiece i node hn
    obtain rfl := Option.some.inj (hi.symm.trans hi₂)
    obtain ⟨_, hi₂', hlen', hok'⟩ := hpiece' i node hn
    obtain rfl := Option.some.inj (hi'.symm.trans hi₂')
    have hplace := Pass.Arrival.moves_placement harrival harrival' heq hlt
    refine ⟨Blueprint.moves_pieceOf hplace hlabels hok hok' hlen hlen', ?_⟩
    have hbase := hplace.base_le
    simp only at hbase
    rw [harrival.trace.address_succ hlt, hlen]
    omega
  have hzero : ([] : List UInt8).length = (walk 0).address - base.toNat := by
    rw [harrival.trace.address_zero]
    exact (Nat.sub_self _).symm
  have hsize := hmoves.length_eq
  obtain rfl := hassembly.image_eq
  obtain rfl := hassembly'.image_eq
  refine ⟨hsize, (hmoves.code_eq [] hzero).symm, hmoves.relocations_eq, ?_, hlabels⟩
  simp only [Image.ofPieces, hsize]
  exact moves_closeSections _ hmoves.opened

/-- **Rebasing.** A reachable program is assembled within the same limits at two bases that have
the same remainder for every alignment, with room for the gaps below and for the whole program
above. Then it takes the same number of passes, and the relocations of the one image turn it into
the other. -/
theorem Assembler.assemble_moves {a a' b b' : Assembler} (hp : p.Reachable)
    (hlimits : a'.limits = a.limits) (hroom : p.Room base) (hroom' : p.Room base')
    (hcongr : p.Congruent base base') (h : a.assemble p base = (.ok (), b))
    (h' : a'.assemble p base' = (.ok (), b')) :
    b'.passes = b.passes ∧ b.image.Moves (base'.toNat - base.toNat) b'.image := by
  unfold assemble at h h'
  rw [hlimits] at h'
  split at h
  · rename_i himage
    split at h'
    · rename_i himage'
      cases h
      cases h'
      exact Program.moves_of_ok hp.valid hroom hroom' hcongr himage himage'
    · cases h'
  · cases h

/-- A jump, and behind a gap the address of its target. -/
def Program.jumpTable : Program :=
  [.createLabel, .emit (.label ⟨0⟩), .emit (.instruction ⟨.jmp, [.label ⟨0⟩]⟩),
    .emit (.align 8 .code), .emit (.address ⟨0⟩ 8)].foldl
    Operation.apply (Program.empty .long64)

/-- A table of addresses moves from one base to another. -/
theorem Assembler.moves_jumpTable :
    let low := (Assembler.assemble {} Program.jumpTable 0x1000).2
    let high := (Assembler.assemble {} Program.jumpTable 0x3008).2
    low.image.relocations = [⟨1, 1, ⟨0⟩, .relative⟩, ⟨8, 8, ⟨0⟩, .absolute⟩] ∧
      high.passes = low.passes ∧
        low.image.Moves ((0x3008 : UInt64).toNat - (0x1000 : UInt64).toNat) high.image := by
  have hp : Program.jumpTable.Reachable := by
    refine Program.reachable_foldl .long64 fun op hop => ?_
    simp only [List.mem_cons, List.not_mem_nil, or_false] at hop
    rcases hop with rfl | rfl | rfl | rfl | rfl <;> trivial
  have hnodes : Program.jumpTable.nodeList = [.label ⟨0⟩, .instruction ⟨.jmp, [.label ⟨0⟩]⟩,
      .align 8 .code, .address ⟨0⟩ 8] := by decide +kernel
  have hcongr : Program.jumpTable.Congruent 0x1000 0x3008 := by
    intro node hn alignment hg
    rw [hnodes] at hn
    simp only [List.mem_cons, List.not_mem_nil, or_false] at hn
    rcases hn with rfl | rfl | rfl | rfl <;> cases hg
    rfl
  have hroom : Program.jumpTable.Room 0x1000 := ⟨by decide +kernel, by decide +kernel⟩
  have hroom' : Program.jumpTable.Room 0x3008 := ⟨by decide +kernel, by decide +kernel⟩
  have hlow : (Assembler.assemble {} Program.jumpTable 0x1000).1 = .ok () := by decide +kernel
  have hhigh : (Assembler.assemble {} Program.jumpTable 0x3008).1 = .ok () := by decide +kernel
  exact ⟨by decide +kernel, Assembler.assemble_moves hp rfl hroom hroom' hcongr
    (Prod.ext hlow rfl) (Prod.ext hhigh rfl)⟩

end X86Asm
