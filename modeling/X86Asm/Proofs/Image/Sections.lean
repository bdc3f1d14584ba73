import Mathlib.Data.Nat.Bitwise
import X86Asm.Proofs.Image.Consistency
import X86Asm.Proofs.Program.Registry

/-!
# The section table

The piece of a node that starts a section is the gap in front of it, and it opens the entry of the
section. The size of an entry is only known when the next one is opened, or at the end
(`closeSections`). In the end the gaps and the sections fill the image from the first gap on, one
behind the other (`Assembler.assemble_tiles`).
-/

namespace X86Asm

variable {p : Program} {base : UInt64} {labels : LabelTable UInt64} {place : Placement}
  {extent : Extent} {piece : Piece} {pieces : List Piece} {node : Node} {nodes : List Node}
  {s : Section} {e : PlacedSection} {entries : List PlacedSection} {gap : List UInt8}
  {front offset i : Nat} {total : UInt64}

/-! ## What is to be shown -/

/-- The entry of a section that starts behind so many bytes and a gap. The gap is the least that
takes the section to a multiple of its alignment. It is filled with breakpoints if the section has
code or may be executed, and with zeros otherwise. -/
structure PlacedSection.StartsBehind (e : PlacedSection) (p : Program) (base : UInt64) (front : Nat)
    (gap : List UInt8) : Prop where
  flags : p.sectionFlags? e.handle = some e.flags
  alignment : ∃ alignment, p.sectionAlignment? e.handle = some alignment ∧
    alignment.toNat ∣ e.address.toNat ∧
      IsLeast {n | alignment.toNat ∣ base.toNat + front + n} gap.length
  padding : e.padding.toNat = gap.length
  offset : e.offset.toNat = front + gap.length
  address : e.address.toNat = base.toNat + e.offset.toNat
  filled : gap = List.replicate gap.length
    (if e.flags.contains .code || e.flags.contains .exec then 0xCC else 0)

/-- The section table of an image is that of a program, and the gaps and the sections fill the
image. -/
structure Image.Tiles (image : Image) (p : Program) : Prop where
  handles : image.sections.map (·.handle) = p.boundSections
  position : ∀ s, (p.sectionNode? s).isSome → ∃ k e, p.sectionPosition? s = some k ∧
    image.sections[k]? = some e ∧ e.handle = s
  entry : ∀ e ∈ image.sections, ∃ front gap back, image.code = front ++ (gap ++ back) ∧
    e.StartsBehind p image.base front.length gap
  next : image.sections.IsChain fun e e' =>
    e.offset.toNat + e.size.toNat + e'.padding.toNat = e'.offset.toNat
  last : ∀ e, image.sections.getLast? = some e → e.offset.toNat + e.size.toNat = image.size

/-! ## Entries -/

/-- The size says nothing about where a section starts. -/
theorem PlacedSection.StartsBehind.withSize (h : e.StartsBehind p base front gap) (size : UInt64) :
    { e with size }.StartsBehind p base front gap :=
  ⟨h.flags, h.alignment, h.padding, h.offset, h.address, h.filled⟩

/-- A section is executable if it has one of two attributes. -/
theorem SectionFlags.isExecutable_eq (flags : SectionFlags) :
    flags.isExecutable = (flags.contains .code || flags.contains .exec) := by
  have hcode : (flags.bits &&& 1).toNat = (flags.bits.toNat.testBit 0).toNat := by
    rw [UInt32.toNat_and]
    exact (Nat.and_two_pow _ 0).trans (Nat.mul_one _)
  have hexec : (flags.bits &&& 16).toNat = (flags.bits.toNat.testBit 4).toNat * 16 := by
    rw [UInt32.toNat_and]
    exact Nat.and_two_pow _ 4
  have hboth : (flags.bits &&& 17).toNat =
      (flags.bits &&& 1).toNat ||| (flags.bits &&& 16).toNat := by
    simp only [UInt32.toNat_and]
    exact Nat.and_or_distrib_left flags.bits.toNat 1 16
  rw [Bool.eq_iff_iff, Bool.or_eq_true]
  simp only [isExecutable, contains, bne_iff_ne, beq_iff_eq, ← UInt32.toNat_inj, ne_eq]
  change ¬ (flags.bits &&& 17).toNat = 0 ↔
    (flags.bits &&& 1).toNat = 1 ∨ (flags.bits &&& 16).toNat = 16
  rw [hboth, hcode, hexec]
  cases flags.bits.toNat.testBit 0 <;> cases flags.bits.toNat.testBit 4 <;> decide

/-- Closing gives the first entry a size and leaves it the first. -/
theorem exists_closeSections_cons (total : UInt64) (e : PlacedSection)
    (entries : List PlacedSection) :
    ∃ size rest, closeSections total (e :: entries) = { e with size } :: rest := by
  cases entries with
  | nil => exact ⟨_, _, rfl⟩
  | cons e' rest => exact ⟨_, _, rfl⟩

/-- Sizes are entered without changing the order of the sections. -/
theorem map_handle_closeSections (total : UInt64) (entries : List PlacedSection) :
    (closeSections total entries).map (·.handle) = entries.map (·.handle) := by
  fun_induction closeSections total entries with
  | case1 => rfl
  | case2 e => rfl
  | case3 e e' rest ih => rw [List.map_cons, ih]; rfl

/-- An entry that is closed has got a size. -/
theorem exists_of_mem_closeSections (h : e ∈ closeSections total entries) :
    ∃ e' ∈ entries, e = { e' with size := e.size } := by
  fun_induction closeSections total entries with
  | case1 => cases h
  | case2 e' =>
    cases List.mem_singleton.mp h
    exact ⟨e', List.mem_cons_self, rfl⟩
  | case3 e' e'' rest ih =>
    rcases List.mem_cons.mp h with rfl | h
    · exact ⟨e', List.mem_cons_self, rfl⟩
    · obtain ⟨e₀, he₀, heq⟩ := ih h
      exact ⟨e₀, List.mem_cons_of_mem _ he₀, heq⟩

/-- The last section reaches to the end of the image. -/
theorem getLast?_closeSections (total : UInt64) (entries : List PlacedSection) :
    (closeSections total entries).getLast? =
      entries.getLast?.map fun e => { e with size := total - e.offset } := by
  fun_induction closeSections total entries with
  | case1 => rfl
  | case2 e => rfl
  | case3 e e' rest ih =>
    obtain ⟨size, rest', heq⟩ := exists_closeSections_cons total e' rest
    rw [heq] at ih ⊢
    rw [List.getLast?_cons_cons, List.getLast?_cons_cons, ih]

/-- If the gaps do not overlap the entries in front of them, what is closed reaches up to them. -/
theorem isChain_closeSections
    (h : entries.IsChain fun e e' => e.offset.toNat + e'.padding.toNat ≤ e'.offset.toNat) :
    (closeSections total entries).IsChain fun e e' =>
      e.offset.toNat + e.size.toNat + e'.padding.toNat = e'.offset.toNat := by
  fun_induction closeSections total entries with
  | case1 => exact .nil
  | case2 e => exact .singleton _
  | case3 e e' rest ih =>
    obtain ⟨hle, hrest⟩ := List.isChain_cons_cons.mp h
    obtain ⟨size, rest', heq⟩ := exists_closeSections_cons total e' rest
    have hchain := ih hrest
    rw [heq] at hchain ⊢
    refine List.isChain_cons_cons.mpr ⟨?_, hchain⟩
    have hgap : (e'.offset - e'.padding).toNat = e'.offset.toNat - e'.padding.toNat :=
      UInt64.toNat_sub_of_le _ _ (UInt64.le_iff_toNat_le.mpr (by omega))
    have hsize : (e'.offset - e'.padding - e.offset).toNat =
        (e'.offset - e'.padding).toNat - e.offset.toNat :=
      UInt64.toNat_sub_of_le _ _ (UInt64.le_iff_toNat_le.mpr (by omega))
    simp only [hsize, hgap]
    omega

/-! ## Pieces -/

/-- A piece opens an entry if its node starts a section, and then it is the gap in front. -/
inductive Piece.Opens (p : Program) (base : UInt64) (offset : Nat) (piece : Piece) : Node → Prop
  /-- The node starts no section. -/
  | bare {node : Node} : (∀ s, node ≠ .sectionStart s) → piece.opened = none →
      Opens p base offset piece node
  /-- The node starts a section. -/
  | entry {s : Section} {e : PlacedSection} : piece.opened = some e → e.handle = s →
      e.StartsBehind p base offset piece.bytes → Opens p base offset piece (.sectionStart s)

/-- A section that is started has an alignment and attributes. -/
theorem Program.Valid.exists_section (hp : p.Valid)
    (hn : p.nodeList[i]? = some (.sectionStart s)) :
    ∃ alignment flags, p.sectionAlignment? s = some alignment ∧ Program.isPowerOfTwo alignment ∧
      p.sectionFlags? s = some flags := by
  obtain ⟨alignment, halignment, hpow⟩ := hp.sectionAlignment hn
  obtain ⟨entry, hentry, -⟩ := Option.map_eq_some_iff.mp halignment
  exact ⟨alignment, entry.flags, halignment, hpow, by rw [Program.sectionFlags?, hentry]; rfl⟩

/-- What starts no section opens no entry. -/
theorem Blueprint.opened_pieceOf {bp : Blueprint} (hnode : ∀ s, node ≠ .sectionStart s)
    (h : bp.pieceOf place node = .ok piece) : piece.opened = none := by
  cases node with
  | sectionStart s => exact absurd rfl (hnode s)
  | instruction instr =>
    obtain ⟨encoded, -, h⟩ := bind_eq_ok_iff.mp h
    cases h
    rfl
  | address l size =>
    obtain ⟨target, -, h⟩ := bind_eq_ok_iff.mp h
    split at h
    · cases h
      rfl
    · cases h
  | difference l relativeTo width =>
    obtain ⟨target, -, h⟩ := bind_eq_ok_iff.mp h
    obtain ⟨origin, -, h⟩ := bind_eq_ok_iff.mp h
    cases h
    rfl
  | label l | data payload | align alignment filler =>
    cases h
    rfl

/-- The piece of a node that starts a section is the gap in front of the section. -/
theorem Blueprint.opens_sectionPiece (hp : p.Valid) (hn : p.nodeList[i]? = some (.sectionStart s))
    (haddress : place.address = base.toNat + offset)
    (hlt : place.address + place.padding < addressSpace)
    (hextent : Pass.gapExtent place.address ((p.sectionAlignment? s).getD 1) = .ok extent)
    (hpadding : place.padding = extent.length) :
    (sectionPiece ⟨p, base, labels⟩ place s).Opens p base offset (.sectionStart s) := by
  obtain ⟨alignment, flags, halignment, hpow, hflags⟩ := hp.exists_section hn
  rw [halignment, Option.getD_some] at hextent
  have hleast := gap_isLeast hpow hextent
  have hoffset : Blueprint.offset ⟨p, base, labels⟩ place = offset := by
    show place.address - base.toNat = offset
    omega
  -- the numbers of an entry are no greater than its address, so they are words
  have hof (n : Nat) (hn : n ≤ place.address + place.padding) : (UInt64.ofNat n).toNat = n :=
    UInt64.toNat_ofNat_of_lt' (Nat.lt_of_le_of_lt hn hlt)
  have hend := hof _ (Nat.le_refl _)
  refine .entry rfl rfl ⟨?_, ⟨alignment, halignment, ?_, ?_⟩, ?_, ?_, ?_, ?_⟩
  all_goals
    simp only [sectionPiece, hflags, hoffset, Option.getD_some, List.length_replicate]
  case refine_2 =>
    rw [hend, hpadding]
    exact hleast.1
  case refine_3 =>
    rw [← haddress, hpadding]
    exact hleast
  case refine_4 => exact hof _ (Nat.le_add_left ..)
  case refine_5 => exact hof _ (by omega)
  case refine_6 => rw [hend, hof _ (by omega), haddress, Nat.add_assoc]
  case refine_7 => rw [SectionFlags.gapByte, SectionFlags.isExecutable_eq]

/-- Pieces in a row, each of which opens the entry of its node. -/
abbrev Piece.OpenAll (p : Program) (base : UInt64) : Nat → List Piece → List Node → Prop :=
  InRow fun offset piece node => piece.Opens p base offset node

namespace Piece.OpenAll

/-- The entries are those of the sections that the nodes start. -/
theorem map_handle (h : OpenAll p base offset pieces nodes) :
    (pieces.filterMap (·.opened)).map (·.handle) = nodes.filterMap fun
      | .sectionStart s => some s
      | _ => none := by
  induction h with
  | nil => rfl
  | @cons offset piece node pieces nodes hpiece _ ih =>
    cases hpiece with
    | bare hnode hnone =>
      rw [List.filterMap_cons_none hnone, ih, List.filterMap_cons_none]
      cases node with
      | sectionStart s => exact absurd rfl (hnode s)
      | _ => rfl
    | entry hopened hhandle _ =>
      rw [List.filterMap_cons_some hopened, List.map_cons, ih, hhandle]
      rfl

/-- The gap of an entry is found in the code. -/
theorem exists_gap (h : OpenAll p base offset pieces nodes) {bytes : List UInt8}
    (hbytes : bytes.length = offset) (he : e ∈ pieces.filterMap (·.opened)) :
    ∃ front gap back, bytes ++ pieces.flatMap (·.bytes) = front ++ (gap ++ back) ∧
      e.StartsBehind p base front.length gap := by
  induction h generalizing bytes with
  | nil => cases he
  | @cons offset piece node pieces nodes hpiece _ ih =>
    have hnext : (bytes ++ piece.bytes).length = offset + piece.bytes.length := by
      rw [List.length_append, hbytes]
    have hrest := fun he => ih hnext he
    rw [List.append_assoc, ← List.flatMap_cons] at hrest
    cases hpiece with
    | bare _ hnone =>
      rw [List.filterMap_cons_none hnone] at he
      exact hrest he
    | entry hopened _ hstarts =>
      rw [List.filterMap_cons_some hopened] at he
      rcases List.mem_cons.mp he with rfl | he
      · exact ⟨bytes, piece.bytes, _, by rw [List.flatMap_cons], hbytes ▸ hstarts⟩
      · exact hrest he

/-- The gaps do not overlap the entries in front of them. -/
theorem sorted (h : OpenAll p base offset pieces nodes) :
    (∀ e ∈ pieces.filterMap (·.opened), offset + e.padding.toNat ≤ e.offset.toNat ∧
      e.offset.toNat ≤ offset + (pieces.flatMap (·.bytes)).length) ∧
      (pieces.filterMap (·.opened)).Pairwise fun e e' =>
        e.offset.toNat + e'.padding.toNat ≤ e'.offset.toNat := by
  induction h with
  | nil => simp
  | @cons offset piece node pieces nodes hpiece _ ih =>
    obtain ⟨hin, hpairwise⟩ := ih
    have hlength : ((piece :: pieces).flatMap (·.bytes)).length =
        piece.bytes.length + (pieces.flatMap (·.bytes)).length := by
      rw [List.flatMap_cons, List.length_append]
    cases hpiece with
    | bare _ hnone =>
      rw [List.filterMap_cons_none hnone]
      refine ⟨fun e he => ?_, hpairwise⟩
      have := hin e he
      omega
    | entry hopened _ hstarts =>
      have hoffset := hstarts.offset
      have hpadding := hstarts.padding
      rw [List.filterMap_cons_some hopened]
      refine ⟨fun e he => ?_, List.pairwise_cons.mpr ⟨fun e he => ?_, hpairwise⟩⟩
      · rcases List.mem_cons.mp he with rfl | he
        · omega
        · have := hin e he
          omega
      · have := hin e he
        omega

end Piece.OpenAll

/-! ## The image -/

/-- The pieces of an image open the entries of their nodes. -/
theorem Assembly.openAll {limits : Limits} {image : Image} {n : Nat} {previous : Option Layout}
    {layout : Layout} (h : Assembly p base limits image n previous layout pieces) (hp : p.Valid) :
    Piece.OpenAll p base 0 pieces p.nodeList := by
  obtain ⟨walk, extent, harrival⟩ := Pass.exists_arrival h.run_eq
  have htrace := harrival.trace
  refine h.inRow harrival fun i node piece hn hok hlen => ?_
  by_cases hnode : ∃ s, node = .sectionStart s
  · obtain ⟨s, rfl⟩ := hnode
    obtain ⟨hlt, -⟩ := List.getElem?_eq_some_iff.mp hn
    have hbase : base.toNat ≤ (walk i).address := htrace.base_le (Nat.le_of_lt hlt)
    have hbelow := htrace.address_lt (p.pass_base_lt base limits previous) hlt
    have hextent : Pass.gapExtent _ _ = .ok _ := htrace.extent_eq i _ hlt hn
    obtain ⟨-, hpadding, -⟩ := Pass.gapExtent_eq_ok hextent
    rw [htrace.address_succ hlt, ← hpadding] at hbelow
    cases hok
    exact Blueprint.opens_sectionPiece hp hn (Nat.add_sub_of_le hbase).symm hbelow hextent hpadding
  · have hnode : ∀ s, node ≠ .sectionStart s := fun s hs => hnode ⟨s, hs⟩
    exact .bare hnode (Blueprint.opened_pieceOf hnode hok)

/-- A bound section is where the list of the bound sections has it. -/
theorem Program.Valid.exists_sectionPosition (hp : p.Valid) (hs : (p.sectionNode? s).isSome) :
    ∃ k, p.sectionPosition? s = some k ∧ p.boundSections[k]? = some s := by
  have hmem : s ∈ p.boundSections :=
    List.mem_filterMap.mpr ⟨.sectionStart s, (hp.registry.section_bound_iff s).mp hs, rfl⟩
  obtain ⟨k, hk⟩ := Option.isSome_iff_exists.mp (List.isSome_idxOf?.mpr hmem)
  obtain ⟨hlt, hget, -⟩ := List.idxOf?_eq_some_iff.mp hk
  refine ⟨k, ?_, List.getElem?_eq_some_iff.mpr ⟨hlt, hget⟩⟩
  rw [sectionPosition?, if_pos hs, hk]

/-- The section table of an image of a valid program fills the image. -/
theorem Program.tiles_of_ok {limits : Limits} {image : Image} {passes : Nat} (hp : p.Valid)
    (h : p.assemble base limits = (.ok image, passes)) : image.base = base ∧ image.Tiles p := by
  obtain ⟨n, previous, layout, pieces, hassembly, -⟩ := assemble_eq_ok h
  have hall := hassembly.openAll hp
  obtain ⟨hin, hsorted⟩ := hall.sorted
  -- the walk ends in the address space, and it ends where the image does
  have hbelow : image.size < addressSpace := by
    obtain ⟨walk, extent, harrival⟩ := Pass.exists_arrival hassembly.run_eq
    have hend := hassembly.address_end hp harrival
    have := harrival.trace.address_lt (p.pass_base_lt base limits previous) (Nat.le_refl _)
    omega
  obtain rfl := hassembly.image_eq
  have hhandles : (Image.ofPieces ⟨p, base, layout.addresses⟩ pieces).sections.map (·.handle) =
      p.boundSections := (map_handle_closeSections ..).trans hall.map_handle
  refine ⟨rfl, hhandles, fun s hs => ?_, fun e he => ?_, ?_, fun e he => ?_⟩
  · obtain ⟨k, hk, hget⟩ := hp.exists_sectionPosition hs
    rw [← hhandles, List.getElem?_map] at hget
    obtain ⟨e, he, hhandle⟩ := Option.map_eq_some_iff.mp hget
    exact ⟨k, e, hk, he, hhandle⟩
  · obtain ⟨e₀, he₀, heq⟩ := exists_of_mem_closeSections he
    obtain ⟨front, gap, back, hcode, hstarts⟩ := hall.exists_gap List.length_nil he₀
    exact ⟨front, gap, back, hcode, heq ▸ hstarts.withSize e.size⟩
  · exact isChain_closeSections hsorted.isChain
  · -- the last entry goes up to the end
    rw [Image.ofPieces, getLast?_closeSections] at he
    obtain ⟨e₀, he₀, rfl⟩ := Option.map_eq_some_iff.mp he
    obtain ⟨-, hle⟩ := hin e₀ (List.mem_of_getLast? he₀)
    have htotal : (UInt64.ofNat (pieces.flatMap (·.bytes)).length).toNat =
        (pieces.flatMap (·.bytes)).length := UInt64.toNat_ofNat_of_lt' hbelow
    have hsize := UInt64.toNat_sub_of_le _ e₀.offset
      (UInt64.le_iff_toNat_le.mpr (by rw [htotal]; omega))
    simp only [hsize, htotal]
    exact Nat.add_sub_of_le (by omega)

/-- **Section table.** What an assembler makes of a reachable program has one entry in its section
table for each section that is bound, in the order of the nodes, where `Program.sectionPosition?`
says that it is. Each entry says where the section starts, behind the least gap that aligns it. A
section goes up to the gap in front of the next one, and the last one goes up to the end. -/
theorem Assembler.assemble_tiles {a a' : Assembler} (hp : p.Reachable)
    (h : a.assemble p base = (.ok (), a')) : a'.image.base = base ∧ a'.image.Tiles p := by
  obtain ⟨_, _, himage, rfl⟩ := assemble_eq_ok h
  exact Program.tiles_of_ok hp.valid himage

/-- A section of data behind a section of code, each with its label. The numbers of the sections are
not in the order of the nodes. -/
def Program.twoSections : Program :=
  [.createSection "data" .data 16, .createSection "text" (.code ||| .exec) 4, .createLabel,
    .emit (.data (.replicate 1 0)), .emit (.sectionStart ⟨1⟩),
    .emit (.instruction ⟨.jmp, [.label ⟨0⟩]⟩), .emit (.sectionStart ⟨0⟩), .emit (.label ⟨0⟩),
    .emit (.address ⟨0⟩ 8)].foldl Operation.apply (Program.empty .long64)

/-- Two sections tile an image behind code that is in none. -/
theorem Assembler.tiles_twoSections :
    Program.twoSections.Reachable ∧ ∃ a,
      Assembler.assemble {} Program.twoSections 0x1000 = (.ok (), a) ∧
        a.image.sections.map (fun e => (e.offset, e.size, e.padding)) = [(4, 2, 3), (16, 8, 10)] ∧
          a.image.base = 0x1000 ∧ a.image.Tiles Program.twoSections := by
  have hp : Program.twoSections.Reachable := by
    refine Program.reachable_foldl .long64 fun op hop => ?_
    simp only [List.mem_cons, List.not_mem_nil, or_false] at hop
    rcases hop with rfl | rfl | rfl | rfl | rfl | rfl | rfl | rfl | rfl
    case inr.inr.inr.inl => exact .replicate ..
    all_goals trivial
  have hok : (Assembler.assemble {} Program.twoSections 0x1000).1 = .ok () := by decide +kernel
  exact ⟨hp, _, Prod.ext hok rfl, by decide +kernel,
    Assembler.assemble_tiles hp (Prod.ext hok rfl)⟩

end X86Asm
