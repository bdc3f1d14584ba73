import X86Asm.Proofs.Encoding.Reference
import X86Asm.Proofs.Image.Consistency

/-!
# The relocation table

An image has an entry in its relocation table for each node that refers to a label, in the order of
the nodes. The entry names the field at the end of the bytes of the node, and the field leads to the
address that the label has in the image.

A piece ends in the field of its entry (`Piece.Lands`), so the fields stand in order and do not
overlap, and what holds of the pieces in a row holds of the image.
-/

namespace X86Asm

variable {p : Program} {base : UInt64} {mode : Mode} {labels : LabelTable UInt64} {offset : Nat}
  {place : Placement} {piece : Piece} {pieces : List Piece} {node : Node} {nodes : List Node}
  {r : Relocation}

/-! ## What is to be shown -/

namespace Relocation

/-- The offset behind the field. -/
def stop (r : Relocation) : Nat := r.offset.toNat + r.size.toNat

/-- The field of an image with the given bytes. -/
def read (r : Relocation) (code : List UInt8) : Nat :=
  ofLittleEndian ((code.drop r.offset.toNat).take r.size.toNat)

/-- The value of the field if it is read as signed. -/
def signed (r : Relocation) (value : Nat) : Int := (value : Int).bmod (256 ^ r.size.toNat)

/-- The processor extends the field by its sign. -/
def IsSigned (mode : Mode) (r : Relocation) : Prop := r.size = 1 ∨ r.size = 4 ∧ mode.isLong

/-- In an instruction the value of the field leads to an address: counted from `behind`, the
address of what follows the field, or by itself. -/
def LeadsTo (mode : Mode) (behind value : Nat) (address : Int) (r : Relocation) : Prop :=
  match r.kind with
  | .relative => address ≡ behind + value [ZMOD 256 ^ r.size.toNat] ∧
      (r.IsSigned mode → address = behind + r.signed value)
  | .absolute => value ≡ address [ZMOD 256 ^ r.size.toNat] ∧
      (mode.isLong → r.signed value = address)

end Relocation

/-- The entry is about the node, and the value of its field is what the node asks for. -/
def Node.Lands (mode : Mode) (labels : LabelTable UInt64) (behind value : Nat) (r : Relocation) :
    Node → Prop
  | .instruction i => ∃ target addend, i.reference? = some ⟨r.label, r.kind, addend⟩ ∧
      labels.find? r.label = some target ∧
      r.LeadsTo mode behind value (target.toNat + addend.toInt)
  | .address l size => r.label = l ∧ r.size = size ∧ r.kind = .absolute ∧
      ∃ target, labels.find? l = some target ∧ value ≡ target.toNat [ZMOD 256 ^ size.toNat] ∧
        (target.toNat = value ∨
          size = 4 ∧ mode.isLong ∧ (target.toNat : Int) = r.signed value % addressSpace)
  | .difference l relativeTo width => r.label = l ∧ r.size.toNat = width.bytes ∧
      r.kind = .relative ∧ ∃ target origin, labels.find? l = some target ∧
        labels.find? relativeTo = some origin ∧
        value ≡ target.toNat - origin.toNat [ZMOD 256 ^ width.bytes]
  | _ => False

/-- The relocation table is that of the nodes of the program. -/
structure Image.Relocates (image : Image) (p : Program) : Prop where
  entries : List.Forall₂
    (fun node r => node.references.head? = some r.label ∧
      node.Lands p.mode image.labels (image.base.toNat + r.stop) (r.read image.code) r)
    (p.nodeList.filter Node.isAddressDependent) image.relocations
  inside : ∀ r ∈ image.relocations, 0 < r.size.toNat ∧ r.stop ≤ image.size
  sorted : image.relocations.Pairwise fun r s => r.stop ≤ s.offset.toNat

/-! ## The field of an instruction -/

/-- A field that holds its value leads to the address that the instruction asks for. -/
theorem LabelField.leadsTo {field : LabelField} {ctx : Context} {length : Nat} {target : UInt64}
    (hwidth : field.kind = .relative ∧ field.width = 1 ∨ field.width = Template.nearBytes mode)
    (hfits : fieldFits mode field.kind field.width (field.value ctx length target))
    (hkind : r.kind = field.kind) (hsize : r.size.toNat = field.width) :
    r.LeadsTo mode (ctx.address.toNat + length)
      (ofLittleEndian (littleEndian field.width (field.value ctx length target)))
      (target.toNat + field.addend.toInt) := by
  have hsigned (h : r.IsSigned mode) :
      r.signed (ofLittleEndian (littleEndian field.width (field.value ctx length target))) =
        field.value ctx length target := by
    rw [Relocation.signed, hsize, bmod_littleEndian]
    refine bmod_of_fieldFits ?_ hfits
    rw [← hsize]
    exact h.imp (congrArg UInt8.toNat) (And.imp_left (congrArg UInt8.toNat))
  unfold Relocation.LeadsTo
  rw [hkind, hsize]
  have hmod := Int.mod_modEq (field.value ctx length target) (256 ^ field.width)
  rw [← ofLittleEndian_littleEndian] at hmod
  cases hk : field.kind with
  | relative =>
    have hvalue : target.toNat + field.addend.toInt =
        (ctx.address.toNat + length : Nat) + field.value ctx length target := by
      simp only [value, hk]
      omega
    refine ⟨?_, fun h => ?_⟩
    · rw [hvalue]
      exact (hmod.add_left _).symm
    · rw [hsigned h, hvalue]
  | absolute =>
    have hvalue : field.value ctx length target = target.toNat + field.addend.toInt := by
      simp only [value, hk]
    rw [hvalue] at hmod hsigned ⊢
    refine ⟨hmod, fun hlong => hsigned (.inr ⟨?_, hlong⟩)⟩
    -- only branches have fields of one byte
    have hfour : field.width = Template.nearBytes mode := by
      rcases hwidth with ⟨hrelative, -⟩ | hnear
      · cases hk.symm.trans hrelative
      · exact hnear
    apply UInt8.toNat_inj.mp
    rw [hsize, hfour]
    cases mode with
    | long64 => rfl
    | _ => cases hlong

/-- An address that fits is the field that holds it, unless it is the sign of the field that extends
it. -/
theorem eq_of_addressFits {size : UInt8} {target : UInt64} (hdomain : size ∈ [2, 4, 8])
    (h : addressFits mode size target) :
    target.toNat = ofLittleEndian (littleEndian size.toNat target.toNat) ∨
      size = 4 ∧ mode.isLong ∧ (target.toNat : Int) =
        (ofLittleEndian (littleEndian size.toNat target.toNat) : Int).bmod (256 ^ size.toNat) %
          addressSpace := by
  have hlt := target.toNat_lt
  have hvalue := ofLittleEndian_littleEndian size.toNat target.toNat
  have hsigned := bmod_littleEndian size.toNat target.toNat
  simp only [List.mem_cons, List.not_mem_nil, or_false] at hdomain
  rcases hdomain with rfl | rfl | rfl
  · have hle : target.toNat ≤ 0xFFFF := by
      simpa [addressFits, UInt64.le_iff_toNat_le] using h
    rw [show (2 : UInt8).toNat = 2 from rfl] at hvalue ⊢
    omega
  · rw [show (4 : UInt8).toNat = 4 from rfl] at hvalue hsigned ⊢
    have hcases : target.toNat ≤ 0xFFFFFFFF ∨
        mode.isLong ∧ 0xFFFFFFFF80000000 ≤ target.toNat := by
      simpa [addressFits, UInt64.le_iff_toNat_le] using h
    rcases hcases with hle | ⟨hlong, hle⟩
    · omega
    · -- the upper half of the addresses is the lower one with the sign
      refine .inr ⟨rfl, hlong, ?_⟩
      rw [hsigned, Int.bmod_def]
      unfold addressSpace
      omega
  · rw [show (8 : UInt8).toNat = 8 from rfl] at hvalue ⊢
    omega

/-! ## Pieces -/

/-- The entry of a piece is about its node, and its field ends the piece. -/
inductive Piece.Lands (mode : Mode) (labels : LabelTable UInt64) (base offset : Nat)
    (piece : Piece) (node : Node) : Prop
  /-- The node refers to no label. -/
  | bare : node.references = [] → piece.relocation = none → Lands mode labels base offset piece node
  /-- The piece ends in a field for a label. -/
  | field {r : Relocation} (lead : List UInt8) {bytes : List UInt8} :
      piece.relocation = some r → node.references.head? = some r.label →
      r.offset.toNat = offset + lead.length → piece.bytes = lead ++ bytes →
      bytes.length = r.size.toNat → 0 < r.size.toNat →
      node.Lands mode labels (base + r.stop) (ofLittleEndian bytes) r →
      Lands mode labels base offset piece node

namespace Blueprint

variable (haddress : place.address = base.toNat + offset)
  (hlt : place.address + place.length < addressSpace)

include haddress hlt

/-- A field within a node has its offset in the image as a number. -/
theorem toNat_offset_add (p : Program) (labels : LabelTable UInt64) {n : Nat}
    (hn : n ≤ place.length) :
    (UInt64.ofNat (Blueprint.offset ⟨p, base, labels⟩ place + n)).toNat = offset + n := by
  have heq : Blueprint.offset ⟨p, base, labels⟩ place = offset := by
    show place.address - base.toNat = offset
    omega
  rw [heq, UInt64.toNat_ofNat_of_lt']
  show offset + n < addressSpace
  omega

/-- The field of an instruction leads to its label. -/
theorem lands_instructionPiece {i : Instruction}
    (h : instructionPiece ⟨p, base, labels⟩ place i = .ok piece)
    (hlength : piece.bytes.length = place.length) :
    piece.Lands p.mode labels base.toNat offset (.instruction i) := by
  obtain ⟨encoded, hencoded, h⟩ := bind_eq_ok_iff.mp h
  cases h
  change encoded.bytes.length = _ at hlength
  obtain ⟨ctx, hstrict, hat, hresolve, hencode⟩ : ∃ ctx : Context, ctx.strict ∧
      ctx.address = UInt64.ofNat place.address ∧ ctx.resolve = labels.find? ∧
        i.encode p.mode ctx = .ok encoded := by
    obtain ⟨near, hencode⟩ := exists_encode_of_encodeAt hencoded
    exact ⟨_, rfl, rfl, rfl, hencode⟩
  rcases Instruction.encode_field hstrict hencode with
    ⟨hlabel, hfixup⟩ | ⟨lead, field, target, hlabel, href, hwidth, htarget, hfits, hbytes, hfixup⟩
  · exact .bare (by simp [Node.references, hlabel]) (by simp [hfixup])
  · have hnear : Template.nearBytes p.mode = 2 ∨ Template.nearBytes p.mode = 4 := by
      cases p.mode <;> decide
    have hsize : (UInt8.ofNat field.width).toNat = field.width := by
      rw [UInt8.toNat_ofNat']
      omega
    have hall : lead.length + field.width = place.length := by
      rw [← hlength, hbytes, List.length_append, length_littleEndian]
    have hle : lead.length ≤ place.length := by omega
    have hoffset := toNat_offset_add haddress hlt p labels hle
    have hhead : (Node.instruction i).references.head? = some field.label := by
      simp [Node.references, hlabel]
    refine .field lead (by rw [hfixup]; rfl) hhead hoffset hbytes ?_ ?_ ?_
    · rw [length_littleEndian, hsize]
    · show 0 < (UInt8.ofNat field.width).toNat
      omega
    · -- the field ends where the next node starts
      have hbehind : base.toNat + (offset + lead.length + field.width) =
          ctx.address.toNat + encoded.bytes.length := by
        rw [hat, UInt64.toNat_ofNat_of_lt' (Nat.lt_of_le_of_lt (Nat.le_add_right ..) hlt)]
        omega
      refine ⟨target, field.addend, href, hresolve ▸ htarget, ?_⟩
      rw [Relocation.stop, hoffset, hsize, hbehind]
      exact LabelField.leadsTo hwidth hfits rfl hsize

/-- The field of an address holds the address. -/
theorem lands_addressPiece {l : Label} {size : UInt8} (hdomain : size ∈ [2, 4, 8])
    (h : addressPiece ⟨p, base, labels⟩ place l size = .ok piece) :
    piece.Lands p.mode labels base.toNat offset (.address l size) := by
  obtain ⟨target, htarget, h⟩ := bind_eq_ok_iff.mp h
  split at h
  · rename_i hfits
    cases h
    have hoffset := toNat_offset_add haddress hlt p labels (Nat.zero_le _)
    refine .field [] rfl rfl hoffset rfl (length_littleEndian ..) ?_ ?_
    · show 0 < size.toNat
      simp only [List.mem_cons, List.not_mem_nil, or_false] at hdomain
      rcases hdomain with rfl | rfl | rfl <;> decide
    · refine ⟨rfl, rfl, rfl, target, resolve_eq_ok.mp htarget, ?_, ?_⟩
      · rw [ofLittleEndian_littleEndian]
        exact Int.mod_modEq _ _
      · exact eq_of_addressFits hdomain hfits
  · cases h

/-- The field of a difference holds the difference. -/
theorem lands_differencePiece {l relativeTo : Label} {width : Width}
    (h : differencePiece ⟨p, base, labels⟩ place l relativeTo width = .ok piece) :
    piece.Lands p.mode labels base.toNat offset (.difference l relativeTo width) := by
  obtain ⟨target, htarget, h⟩ := bind_eq_ok_iff.mp h
  obtain ⟨origin, horigin, h⟩ := bind_eq_ok_iff.mp h
  cases h
  have hoffset := toNat_offset_add haddress hlt p labels (Nat.zero_le _)
  have hsize : (UInt8.ofNat width.bytes).toNat = width.bytes := by cases width <;> rfl
  refine .field [] rfl rfl hoffset rfl ?_ ?_ ?_
  · rw [length_littleEndian, hsize]
  · show 0 < (UInt8.ofNat width.bytes).toNat
    cases width <;> decide
  · refine ⟨rfl, hsize, rfl, target, origin, resolve_eq_ok.mp htarget, resolve_eq_ok.mp horigin, ?_⟩
    rw [littleEndian_sub, ofLittleEndian_littleEndian]
    exact Int.mod_modEq _ _

/-- The piece of a node ends in the field that the node asks for. -/
theorem lands_pieceOf (hdomain : node.InDomain)
    (h : pieceOf ⟨p, base, labels⟩ place node = .ok piece)
    (hlength : piece.bytes.length = place.length) :
    piece.Lands p.mode labels base.toNat offset node := by
  cases node with
  | instruction i => exact lands_instructionPiece haddress hlt h hlength
  | address l size => exact lands_addressPiece haddress hlt hdomain h
  | difference l relativeTo width => exact lands_differencePiece haddress hlt h
  | label l | sectionStart s | data payload | align alignment filler =>
    cases h
    exact .bare rfl rfl

end Blueprint

/-! ## Pieces in a row -/

/-- Pieces in a row, each of which ends in the field that its node asks for. -/
abbrev Piece.LandAll (mode : Mode) (labels : LabelTable UInt64) (base : Nat) :
    Nat → List Piece → List Node → Prop :=
  InRow fun offset piece node => piece.Lands mode labels base offset node

namespace Piece.LandAll

/-- The field of an entry is the end of the piece. -/
theorem read_append {front lead bytes : List UInt8}
    (hoffset : r.offset.toNat = front.length + lead.length)
    (hbytes : bytes.length = r.size.toNat) (rest : List UInt8) :
    r.read (front ++ (lead ++ bytes ++ rest)) = ofLittleEndian bytes := by
  have hlead : (front ++ lead).length = r.offset.toNat := by rw [List.length_append, hoffset]
  unfold Relocation.read
  rw [List.append_assoc lead, ← List.append_assoc front, List.drop_left' hlead,
    List.take_left' hbytes]

/-- Every node that depends on addresses has an entry, in the order of the nodes, which reads as it
should. -/
theorem entries {base : Nat} (h : LandAll mode labels base offset pieces nodes)
    (front : List UInt8) (hfront : front.length = offset) :
    List.Forall₂
      (fun node r => node.references.head? = some r.label ∧
        node.Lands mode labels (base + r.stop) (r.read (front ++ pieces.flatMap (·.bytes))) r)
      (nodes.filter Node.isAddressDependent) (pieces.filterMap (·.relocation)) := by
  induction h generalizing front with
  | nil => exact .nil
  | @cons offset piece node pieces nodes hpiece _ ih =>
    -- the pieces behind see those in front as they are
    have hnext := ih (front ++ piece.bytes) (by rw [List.length_append, hfront])
    rw [List.append_assoc, ← List.flatMap_cons] at hnext
    cases hpiece with
    | bare href hnone =>
      have hplain : ¬ node.isAddressDependent = true := by simp [Node.isAddressDependent, href]
      rw [List.filterMap_cons_none hnone, List.filter_cons_of_neg hplain]
      exact hnext
    | @field r lead bytes hr href hoffset hbytes hsize hpos hlands =>
      have hdepends : node.isAddressDependent = true := by
        unfold Node.isAddressDependent
        cases hrefs : node.references with
        | nil => simp [hrefs] at href
        | cons l ls => rfl
      rw [List.filterMap_cons_some hr, List.filter_cons_of_pos hdepends]
      refine .cons ⟨href, ?_⟩ hnext
      rw [List.flatMap_cons, hbytes, read_append (by rw [hoffset, hfront]) hsize]
      exact hlands

/-- The fields stand one behind the other. -/
theorem sorted {base : Nat} (h : LandAll mode labels base offset pieces nodes) :
    (∀ r ∈ pieces.filterMap (·.relocation), offset ≤ r.offset.toNat ∧ 0 < r.size.toNat ∧
      r.stop ≤ offset + (pieces.flatMap (·.bytes)).length) ∧
      (pieces.filterMap (·.relocation)).Pairwise fun r s => r.stop ≤ s.offset.toNat := by
  induction h with
  | nil => simp
  | @cons offset piece node pieces nodes hpiece _ ih =>
    obtain ⟨hin, hpairwise⟩ := ih
    have hlength : ((piece :: pieces).flatMap (·.bytes)).length =
        piece.bytes.length + (pieces.flatMap (·.bytes)).length := by
      rw [List.flatMap_cons, List.length_append]
    -- what is said of the later fields is said of the places behind this piece
    have hlater : ∀ s ∈ pieces.filterMap (·.relocation),
        offset + piece.bytes.length ≤ s.offset.toNat ∧ 0 < s.size.toNat ∧
          s.stop ≤ offset + ((piece :: pieces).flatMap (·.bytes)).length := by
      intro s hs
      have := hin s hs
      omega
    cases hpiece with
    | bare href hnone =>
      rw [List.filterMap_cons_none hnone]
      exact ⟨fun s hs => ⟨by have := hlater s hs; omega, (hlater s hs).2⟩, hpairwise⟩
    | @field r lead bytes hr href hoffset hbytes hsize hpos hlands =>
      have hstop : r.stop = offset + piece.bytes.length := by
        rw [Relocation.stop, hoffset, hbytes, List.length_append, hsize, Nat.add_assoc]
      rw [List.filterMap_cons_some hr]
      constructor
      · intro s hs
        rcases List.mem_cons.mp hs with rfl | hs
        · omega
        · exact ⟨by have := hlater s hs; omega, (hlater s hs).2⟩
      · refine List.pairwise_cons.mpr ⟨fun s hs => ?_, hpairwise⟩
        rw [hstop]
        exact (hlater s hs).1

end Piece.LandAll

/-! ## The image -/

/-- The relocation table of an image of a valid program is that of its nodes. -/
theorem Program.relocates_of_ok {limits : Limits} {image : Image} {passes : Nat} (hp : p.Valid)
    (h : p.assemble base limits = (.ok image, passes)) :
    image.base = base ∧ image.Relocates p := by
  obtain ⟨n, previous, layout, pieces, hassembly, -⟩ := assemble_eq_ok h
  obtain ⟨walk, extent, harrival⟩ := Pass.exists_arrival hassembly.run_eq
  have htrace := harrival.trace
  have hspace := p.pass_base_lt base limits previous
  have hall : Piece.LandAll p.mode layout.addresses base.toNat 0 pieces p.nodeList := by
    refine hassembly.inRow harrival fun i node piece hn hok hlen => ?_
    obtain ⟨hlt, -⟩ := List.getElem?_eq_some_iff.mp hn
    have hbase : base.toNat ≤ (walk i).address := htrace.base_le (Nat.le_of_lt hlt)
    have hbelow := htrace.address_lt hspace hlt
    rw [htrace.address_succ hlt] at hbelow
    have hplace : (walk i).address = base.toNat + ((walk i).address - base.toNat) := by omega
    exact Blueprint.lands_pieceOf hplace hbelow (hp.admits_getElem? hn).inDomain hok hlen
  obtain ⟨hin, hsorted⟩ := hall.sorted
  obtain rfl := hassembly.image_eq
  refine ⟨rfl, hall.entries [] rfl, fun r hr => ?_, hsorted⟩
  obtain ⟨-, hpos, hstop⟩ := hin r hr
  rw [Nat.zero_add] at hstop
  exact ⟨hpos, hstop⟩

/-- **Relocations.** What an assembler makes of a reachable program has one entry in its relocation
table for each node that refers to a label, in the order of the nodes. The fields lie within the
code, in order and without overlap, and the field of an entry leads to the address of its label. -/
theorem Assembler.assemble_relocates {a a' : Assembler} (hp : p.Reachable)
    (h : a.assemble p base = (.ok (), a')) :
    a'.image.base = base ∧ a'.image.Relocates p := by
  obtain ⟨_, _, himage, rfl⟩ := assemble_eq_ok h
  exact Program.relocates_of_ok hp.valid himage

/-- Two labels around references of each kind. -/
def Program.pointers : Program :=
  [.createLabel, .createLabel, .emit (.label ⟨0⟩),
    .emit (.instruction
      ⟨.lea, [.register (.qword 0), .memory { base := some .rip, disp := 2, label := some ⟨1⟩ }]⟩),
    .emit (.instruction ⟨.jmp, [.label ⟨0⟩]⟩), .emit (.address ⟨0⟩ 4),
    .emit (.difference ⟨1⟩ ⟨0⟩ .bits16), .emit (.label ⟨1⟩)].foldl
    Operation.apply (Program.empty .long64)

/-- The pointers are put together by operations. -/
theorem Program.reachable_pointers : Program.pointers.Reachable := by
  refine Program.reachable_foldl .long64 fun op hop => ?_
  simp only [List.mem_cons, List.not_mem_nil, or_false] at hop
  rcases hop with rfl | rfl | rfl | rfl | rfl | rfl | rfl | rfl <;> trivial

/-- At the upper end of the address space, where four bytes hold an address by its sign. -/
theorem Assembler.relocates_pointers :
    Program.pointers.Reachable ∧
      ∃ a, Assembler.assemble {} Program.pointers 0xFFFFFFFF80000000 = (.ok (), a) ∧
        a.image.relocations = [⟨3, 4, ⟨1⟩, .relative⟩, ⟨8, 1, ⟨0⟩, .relative⟩,
          ⟨9, 4, ⟨0⟩, .absolute⟩, ⟨13, 2, ⟨1⟩, .relative⟩] ∧
        a.image.base = 0xFFFFFFFF80000000 ∧ a.image.Relocates Program.pointers := by
  have hok : (Assembler.assemble {} Program.pointers 0xFFFFFFFF80000000).1 = .ok () := by
    decide +kernel
  refine ⟨Program.reachable_pointers, _, Prod.ext hok rfl, by decide +kernel, ?_⟩
  exact Assembler.assemble_relocates Program.reachable_pointers (Prod.ext hok rfl)

end X86Asm
