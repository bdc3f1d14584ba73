import X86Asm.Proofs.Image.Consistency
import X86Asm.Proofs.Image.Unresolved
import X86Asm.Proofs.Layout.Renaming
import X86Asm.Proofs.Program.Registry

/-!
# Which labels a program uses does not show

Two programs whose nodes are the same up to the names of labels and sections, and up to markers of
labels that nothing refers to, are assembled to the same code, or fail for the same kind of error
(`Assembler.assemble_alike`). How they came about does not matter, so nothing shows of the order in
which labels were created, of nodes that were taken out again or of labels that are not used.

Both are compared with the nodes that are left after renaming. These are laid out in the same way
(`Renaming.alike_relaxFrom`), and the piece of each is the same up to names.
-/

namespace X86Asm

variable {p p' : Program} {base : UInt64} {limits : Limits} {layout layout' : Layout}
  {nodes : List Node} {node : Node} {labels labels' : LabelTable UInt64} {place : Placement}
  {places : List Placement} {pieces pieces' : List Piece} {l : Label} {index index' : Nat}

/-! ## Renaming images -/

/-- The entry with its label renamed. -/
def Relocation.rename (σ : Label → Label) (r : Relocation) : Relocation :=
  { r with label := σ r.label }

/-- The entry with its section renamed. -/
def PlacedSection.rename (τ : Section → Section) (e : PlacedSection) : PlacedSection :=
  { e with handle := τ e.handle }

/-- The sizes of sections do not depend on their names. -/
theorem closeSections_rename (τ : Section → Section) (total : UInt64)
    (entries : List PlacedSection) :
    closeSections total (entries.map (PlacedSection.rename τ)) =
      (closeSections total entries).map (PlacedSection.rename τ) := by
  fun_induction closeSections total entries with
  | case1 => rfl
  | case2 e => rfl
  | case3 e e' rest ih => exact congrArg (_ :: ·) ih

/-- Naming the label in an error leaves the kind of the error. -/
theorem Error.tag_nameLabel (p : Program) (e : Error) : (p.nameLabel e).tag = e.tag := by
  unfold Program.nameLabel
  split <;> rfl

namespace Renaming

variable {r : Renaming}

/-- The piece with its label and its section renamed. -/
def piece (r : Renaming) (piece : Piece) : Piece where
  bytes := piece.bytes
  relocation := piece.relocation.map (Relocation.rename r.labels)
  opened := piece.opened.map (PlacedSection.rename r.sections)

/-- Pieces of the nodes that are kept say what the pieces of all nodes say. -/
structure ShowsPieces (r : Renaming) (pieces pieces' : List Piece) : Prop where
  bytes : pieces'.flatMap (·.bytes) = pieces.flatMap (·.bytes)
  relocations : pieces'.filterMap (·.relocation) =
    (pieces.filterMap (·.relocation)).map (Relocation.rename r.labels)
  opened : pieces'.filterMap (·.opened) =
    (pieces.filterMap (·.opened)).map (PlacedSection.rename r.sections)

/-- Two images are the same up to the names of labels and sections, and have the same addresses for
the labels that are kept. -/
structure ShowsImage (r : Renaming) (image image' : Image) : Prop where
  base_eq : image'.base = image.base
  code_eq : image'.code = image.code
  sections_eq : image'.sections = image.sections.map (PlacedSection.rename r.sections)
  relocations_eq : image'.relocations = image.relocations.map (Relocation.rename r.labels)
  label_eq : ∀ l, r.keep l = true → image'.labels.find? (r.labels l) = image.labels.find? l

/-- Two programs have the same nodes up to the names of labels and sections, and up to the markers
of labels that are not kept. The labels that nodes refer to are kept, and sections have the same
alignments, attributes and names. -/
structure Relates (r : Renaming) (p p' : Program) : Prop where
  suits : r.Suits p p' p.nodeList
  nodes_eq : p'.nodeList.filter (Node.isKept fun l => r.keep (r.labels.symm l)) =
    r.apply p.nodeList

/-! ## Pieces -/

/-- No pieces say nothing. -/
theorem ShowsPieces.nil (r : Renaming) : r.ShowsPieces [] [] := ⟨rfl, rfl, rfl⟩

/-- A piece in front says the same on both sides, up to names. -/
theorem ShowsPieces.cons (h : r.ShowsPieces pieces pieces') (piece : Piece) :
    r.ShowsPieces (piece :: pieces) (r.piece piece :: pieces') where
  bytes := by rw [List.flatMap_cons, List.flatMap_cons, h.bytes]; rfl
  relocations := by
    obtain ⟨bytes, _ | relocation, opened⟩ := piece
    · exact h.relocations
    · exact congrArg (_ :: ·) h.relocations
  opened := by
    obtain ⟨bytes, relocation, _ | opened⟩ := piece
    · exact h.opened
    · exact congrArg (_ :: ·) h.opened

/-- The piece of a marker that is left out says nothing. -/
theorem ShowsPieces.skip (h : r.ShowsPieces pieces pieces') :
    r.ShowsPieces ({ bytes := [] } :: pieces) pieces' :=
  ⟨h.bytes, h.relocations, h.opened⟩

/-- What suits all nodes suits all but the first. -/
theorem Suits.tail (h : r.Suits p p' (node :: nodes)) : r.Suits p p' nodes where
  mode_eq := h.mode_eq
  keep n hn := h.keep n (List.mem_cons_of_mem _ hn)
  alignment_eq s hs := h.alignment_eq s (List.mem_cons_of_mem _ hs)
  flags_eq s hs := h.flags_eq s (List.mem_cons_of_mem _ hs)
  name_eq s hs := h.name_eq s (List.mem_cons_of_mem _ hs)

section

variable (hsuits : r.Suits p p' nodes)
  (hlabels : ∀ l, r.keep l = true → labels'.find? (r.labels l) = labels.find? l)

include hlabels

/-- A label that is kept resolves alike under both names. -/
theorem alike_resolve (hl : r.keep l = true) :
    Alike Error.SameKind Eq (Blueprint.resolve ⟨p, base, labels⟩ l)
      (Blueprint.resolve ⟨p', base, labels'⟩ (r.labels l)) := by
  unfold Blueprint.resolve
  simp only [hlabels l hl]
  cases labels.find? l with
  | none => exact .error rfl
  | some address => exact .ok rfl

include hsuits

/-- An instruction is encoded alike under both names. -/
theorem alike_encode {instr : Instruction} (hmem : .instruction instr ∈ nodes) (near : Bool) :
    Alike Error.SameKind (fun e e' => e' = e.rename r.labels)
      (Blueprint.encode ⟨p, base, labels⟩ instr
        { Blueprint.context ⟨p, base, labels⟩ place with near })
      (Blueprint.encode ⟨p', base, labels'⟩ (instr.rename r.labels)
        { Blueprint.context ⟨p', base, labels'⟩ place with near }) := by
  have hencode : Alike Error.SameKind (fun e e' => e' = e.rename r.labels)
      (instr.encode p.mode { Blueprint.context ⟨p, base, labels⟩ place with near })
      ((instr.rename r.labels).encode p'.mode
        { Blueprint.context ⟨p', base, labels'⟩ place with near }) := by
    rw [hsuits.mode_eq]
    exact instr.alike_encode rfl rfl rfl fun l hl =>
      hlabels l (hsuits.keep _ hmem l (by simp [Node.references, hl]))
  refine hencode.mapError fun e e' he => ?_
  rw [Error.SameKind, Error.tag_nameLabel, Error.tag_nameLabel]
  exact he

/-- An instruction in its place is encoded alike under both names. -/
theorem alike_encodeAt {instr : Instruction} (hmem : .instruction instr ∈ nodes) :
    Alike Error.SameKind (fun e e' => e' = e.rename r.labels)
      (Blueprint.encodeAt ⟨p, base, labels⟩ place instr)
      (Blueprint.encodeAt ⟨p', base, labels'⟩ place (instr.rename r.labels)) := by
  refine (alike_encode hsuits hlabels hmem false).bind fun e e' _ _ he => ?_
  subst he
  exact .ite (fun _ => alike_encode hsuits hlabels hmem true) fun _ => .ok rfl

/-- A node that is kept has the same piece in the same place, up to names. -/
theorem alike_pieceOf (hmem : node ∈ nodes) :
    Alike Error.SameKind (fun a a' => a' = r.piece a)
      (Blueprint.pieceOf ⟨p, base, labels⟩ place node)
      (Blueprint.pieceOf ⟨p', base, labels'⟩ place (r.renamed node)) := by
  have hkeep := hsuits.keep node hmem
  cases node with
  | instruction instr =>
    refine (alike_encodeAt hsuits hlabels hmem).bind fun e e' _ _ he => .ok ?_
    obtain ⟨bytes, _ | fixup⟩ := e <;> subst he <;> rfl
  | label l => exact .ok rfl
  | sectionStart s =>
    refine .ok ?_
    simp only [Blueprint.sectionPiece, hsuits.flags_eq s hmem, hsuits.name_eq s hmem]
    rfl
  | data payload => exact .ok rfl
  | align alignment filler =>
    refine .ok ?_
    simp only [hsuits.mode_eq]
    rfl
  | address l size =>
    refine (alike_resolve hlabels (hkeep l (by simp [Node.references]))).bind
      fun target target' _ _ htarget => ?_
    subst htarget
    simp only [hsuits.mode_eq]
    exact .ite (fun _ => .ok rfl) fun _ => .error rfl
  | difference l relativeTo width =>
    refine (alike_resolve hlabels (hkeep l (by simp [Node.references]))).bind
      fun target target' _ _ htarget => ?_
    refine (alike_resolve hlabels (hkeep relativeTo (by simp [Node.references]))).bind
      fun origin origin' _ _ horigin => .ok ?_
    rw [htarget, horigin]
    rfl

/-- The piece of a node is alike in both programs. -/
theorem alike_piece (hmem : node ∈ nodes) :
    Alike Error.SameKind (fun a a' => a' = r.piece a)
      (Blueprint.piece ⟨p, base, labels⟩ index place node)
      (Blueprint.piece ⟨p', base, labels'⟩ index' place (r.renamed node)) := by
  refine (alike_pieceOf hsuits hlabels hmem).bind fun a a' _ _ ha => ?_
  subst ha
  exact .ite (fun _ => .ok rfl) fun _ => .error rfl

end

/-- The nodes that are kept have the pieces of all nodes. -/
theorem alike_pieces (hsuits : r.Suits p p' nodes)
    (hlabels : ∀ l, r.keep l = true → labels'.find? (r.labels l) = labels.find? l)
    (hlength : nodes.length = places.length)
    (hflat : ∀ row ∈ nodes.zip places, row.1.isKept r.keep = false → row.2.shape = (0, 0)) :
    Alike Error.SameKind r.ShowsPieces
      (Blueprint.pieces ⟨p, base, labels⟩ index (nodes.zip places))
      (Blueprint.pieces ⟨p', base, labels'⟩ index'
        ((r.apply nodes).zip (keptOf r.keep nodes places))) := by
  induction nodes generalizing places index index' with
  | nil => exact .ok (.nil r)
  | cons node nodes ih =>
    obtain ⟨place, places, rfl⟩ := List.exists_cons_of_length_eq_add_one hlength.symm
    have hrest : ∀ index index', Alike Error.SameKind r.ShowsPieces
        (Blueprint.pieces ⟨p, base, labels⟩ index (nodes.zip places))
        (Blueprint.pieces ⟨p', base, labels'⟩ index'
          ((r.apply nodes).zip (keptOf r.keep nodes places))) := fun _ _ =>
      ih hsuits.tail (Nat.succ.inj hlength) fun row hrow => hflat row (List.mem_cons_of_mem _ hrow)
    cases hkept : node.isKept r.keep with
    | true =>
      rw [apply_cons_kept hkept, keptOf_cons_kept hkept]
      refine (alike_piece hsuits hlabels List.mem_cons_self).bind fun a a' _ _ ha => ?_
      subst ha
      exact (hrest _ _).bind fun _ _ _ _ h => .ok (h.cons a)
    | false =>
      -- a marker that is left out has a piece without bytes
      have hempty : place.length = 0 :=
        congrArg Prod.fst (hflat (node, place) List.mem_cons_self hkept)
      obtain ⟨l, rfl, -⟩ := Node.eq_label_of_isKept hkept
      have hpiece : Blueprint.piece ⟨p, base, labels⟩ index place (.label l) =
          .ok { bytes := [] } := if_pos hempty.symm
      rw [apply_cons_left_out hkept, keptOf_cons_left_out hkept, List.zip_cons_cons,
        Blueprint.pieces, hpiece]
      exact (hrest (index + 1) index').map_left fun _ _ h => h.skip

/-! ## Images -/

/-- Pieces that say the same make the same image, up to names. -/
theorem ShowsPieces.showsImage (h : r.ShowsPieces pieces pieces')
    (hlabels : ∀ l, r.keep l = true → labels'.find? (r.labels l) = labels.find? l) :
    r.ShowsImage (.ofPieces ⟨p, base, labels⟩ pieces) (.ofPieces ⟨p', base, labels'⟩ pieces') where
  base_eq := rfl
  code_eq := h.bytes
  sections_eq := by
    simp only [Image.ofPieces, h.bytes, h.opened, closeSections_rename]
  relocations_eq := h.relocations
  label_eq := hlabels

end Renaming

namespace Program

/-- The image of nodes that are laid out, with the labels and sections of a program. -/
def renderNodes (p : Program) (nodes : List Node) (base : UInt64) (layout : Layout) :
    Except Error Image := do
  let b : Blueprint := ⟨p, base, layout.addresses⟩
  let pieces ← b.pieces 0 (nodes.zip layout.placements.toList)
  return .ofPieces b pieces

/-- The image of nodes, with the labels and sections of a program, and the number of passes. -/
def assembleNodes (p : Program) (nodes : List Node) (base : UInt64) (limits : Limits) :
    Except Error Image × Nat :=
  let (layout, passes) := p.relaxFrom base limits nodes limits.maxPasses.toNat 0 none
  (layout >>= p.renderNodes nodes base, passes)

/-- Behind the check in front a program is assembled node by node. -/
theorem assemble_of_checkBound (h : p.checkBound = .ok ()) :
    p.assemble base limits = p.assembleNodes p.nodeList base limits := by
  unfold assemble
  rw [h]
  rfl

end Program

namespace Renaming

variable {r : Renaming}

/-- Layouts that show the same are rendered alike. -/
theorem alike_renderNodes (hsuits : r.Suits p p' nodes) (h : r.Shows nodes layout layout') :
    Alike Error.SameKind r.ShowsImage (p.renderNodes nodes base layout)
      (p'.renderNodes (r.apply nodes) base layout') := by
  have hlabels (l : Label) (hl : r.keep l = true) :
      layout'.addresses.find? (r.labels l) = layout.addresses.find? l := by
    rw [Layout.addresses, Layout.addresses, LabelTable.find?_map, LabelTable.find?_map, h.mark l hl]
  have hpieces : Alike Error.SameKind r.ShowsPieces
      (Blueprint.pieces ⟨p, base, layout.addresses⟩ 0 (nodes.zip layout.placements.toList))
      (Blueprint.pieces ⟨p', base, layout'.addresses⟩ 0
        ((r.apply nodes).zip layout'.placements.toList)) := by
    rw [h.placements]
    exact alike_pieces hsuits hlabels (h.size.symm.trans Array.length_toList.symm) h.flat
  exact hpieces.bind fun _ _ _ _ h => .ok (h.showsImage hlabels)

/-- The nodes that are kept are assembled as all nodes are. -/
theorem alike_assembleNodes (hsuits : r.Suits p p' nodes) :
    (p'.assembleNodes (r.apply nodes) base limits).2 = (p.assembleNodes nodes base limits).2 ∧
      Alike Error.SameKind r.ShowsImage (p.assembleNodes nodes base limits).1
        (p'.assembleNodes (r.apply nodes) base limits).1 := by
  obtain ⟨hpasses, hlayout⟩ := alike_relaxFrom hsuits limits.maxPasses.toNat 0 .none
  exact ⟨hpasses, hlayout.bind fun _ _ _ _ h => alike_renderNodes hsuits h⟩

/-! ## Two programs -/

/-- Keeps the names, and the markers that have the new names of those that are kept. -/
def leftover (r : Renaming) : Renaming where
  labels := Equiv.refl Label
  sections := Equiv.refl Section
  keep l := r.keep (r.labels.symm l)

/-- What is left over of the nodes are those that are kept, under the names that they have. -/
theorem leftover_apply (r : Renaming) (nodes : List Node) :
    r.leftover.apply nodes = nodes.filter (Node.isKept fun l => r.keep (r.labels.symm l)) :=
  (List.map_congr_left fun node _ => node.rename_id).trans (List.map_id _)

namespace Relates

variable (h : r.Relates p p')

include h

/-- What is kept of one program is in the other. -/
theorem mem_apply_iff (hkept : node.isKept (fun l => r.keep (r.labels.symm l)) = true) :
    node ∈ r.apply p.nodeList ↔ node ∈ p'.nodeList := by
  rw [← h.nodes_eq, List.mem_filter, and_iff_left hkept]

/-- Both programs refer to the same labels. -/
theorem refers_iff : (∃ node ∈ p'.nodeList, r.labels l ∈ node.references) ↔
    ∃ node ∈ p.nodeList, l ∈ node.references := by
  constructor
  · rintro ⟨node', hnode', hl⟩
    obtain ⟨node, hnode, -, rfl⟩ :=
      mem_apply.mp ((h.mem_apply_iff (Node.isKept_of_mem_references hl)).mpr hnode')
    rw [renamed, Node.references_rename, List.mem_map_of_injective r.labels.injective] at hl
    exact ⟨node, hnode, hl⟩
  · rintro ⟨node, hnode, hl⟩
    have hl' : r.labels l ∈ (r.renamed node).references := by
      rw [renamed, Node.references_rename]
      exact List.mem_map_of_mem hl
    refine ⟨r.renamed node, (h.mem_apply_iff (Node.isKept_of_mem_references hl')).mp ?_, hl'⟩
    exact mem_apply.mpr ⟨node, hnode, Node.isKept_of_mem_references hl, rfl⟩

/-- Leaving out markers to which nothing refers suits any program. -/
theorem suits_leftover : r.leftover.Suits p' p' p'.nodeList where
  mode_eq := rfl
  keep node hnode l' hl' := by
    obtain ⟨l, rfl⟩ := r.labels.surjective l'
    obtain ⟨n, hn, hl⟩ := h.refers_iff.mp ⟨node, hnode, hl'⟩
    show r.keep (r.labels.symm (r.labels l)) = true
    rw [Equiv.symm_apply_apply]
    exact h.suits.keep n hn l hl
  alignment_eq _ _ := rfl
  flags_eq _ _ := rfl
  name_eq _ _ := rfl

/-- A label that is kept is bound in both programs or in neither. -/
theorem isBound_eq (hp : p.Valid) (hp' : p'.Valid) (hl : r.keep l = true) :
    p'.isBound (r.labels l) = p.isBound l := by
  rw [Bool.eq_iff_iff, hp.registry.isBound_iff, hp'.registry.isBound_iff, ← label_mem_apply hl]
  exact (h.mem_apply_iff (by simpa [Node.isKept] using hl)).symm

/-- Both programs pass the check in front, or neither does. -/
theorem checkBound_iff (hp : p.Valid) (hp' : p'.Valid) :
    p'.checkBound = .ok () ↔ p.checkBound = .ok () := by
  rw [Program.checkBound_eq_ok, Program.checkBound_eq_ok]
  constructor
  · intro hbound node hnode l hl
    obtain ⟨node', hnode', hl'⟩ := h.refers_iff.mpr ⟨node, hnode, hl⟩
    rw [← h.isBound_eq hp hp' (h.suits.keep node hnode l hl)]
    exact hbound node' hnode' _ hl'
  · intro hbound node' hnode' l' hl'
    obtain ⟨l, rfl⟩ := r.labels.surjective l'
    obtain ⟨node, hnode, hl⟩ := h.refers_iff.mp ⟨node', hnode', hl'⟩
    rw [h.isBound_eq hp hp' (h.suits.keep node hnode l hl)]
    exact hbound node hnode l hl

end Relates

/-- Images that show what the image of the nodes that are kept shows are the same up to names. -/
theorem ShowsImage.of_leftover {image image' common : Image} (h : r.ShowsImage image common)
    (h' : r.leftover.ShowsImage image' common) : r.ShowsImage image image' where
  base_eq := h'.base_eq.symm.trans h.base_eq
  code_eq := h'.code_eq.symm.trans h.code_eq
  sections_eq := by
    rw [← h.sections_eq, h'.sections_eq]
    exact (List.map_id _).symm
  relocations_eq := by
    rw [← h.relocations_eq, h'.relocations_eq]
    exact (List.map_id _).symm
  label_eq l hl := by
    have hl' : r.leftover.keep (r.labels l) = true := by simpa [leftover] using hl
    rw [← h.label_eq l hl, ← h'.label_eq _ hl']
    rfl

end Renaming

/-- Two programs that are the same up to names make the same image in as many passes, or fail in
the same way. -/
theorem Renaming.Relates.alike_assemble {r : Renaming} (h : r.Relates p p') (hp : p.Valid)
    (hp' : p'.Valid) (base : UInt64) (limits : Limits) :
    (p'.assemble base limits).2 = (p.assemble base limits).2 ∧
      Alike Error.SameKind r.ShowsImage (p.assemble base limits).1 (p'.assemble base limits).1 := by
  cases hbound : p.checkBound with
  | ok _ =>
    rw [Program.assemble_of_checkBound hbound,
      Program.assemble_of_checkBound ((h.checkBound_iff hp hp').mpr hbound)]
    -- both programs come to the same when the markers without references are left out
    obtain ⟨hpasses, hkept⟩ := alike_assembleNodes h.suits
    obtain ⟨hpasses', hkept'⟩ := alike_assembleNodes h.suits_leftover
    rw [leftover_apply, h.nodes_eq] at hpasses' hkept'
    refine ⟨hpasses'.symm.trans hpasses, hkept.join hkept' (fun _ _ _ => .of_leftover) ?_⟩
    exact fun _ _ _ he he' => he.trans he'.symm
  | error e =>
    cases hbound' : p'.checkBound with
    | ok _ => cases ((h.checkBound_iff hp hp').mp hbound').symm.trans hbound
    | error e' =>
      obtain ⟨l, -, rfl⟩ := Program.checkBound_eq_error.mp hbound
      obtain ⟨l', -, rfl⟩ := Program.checkBound_eq_error.mp hbound'
      rw [Program.assemble_eq_error_of_checkBound hbound,
        Program.assemble_eq_error_of_checkBound hbound']
      exact ⟨rfl, .error rfl⟩

/-- An assembler shows nothing but what it makes of a program, and after a failure it shows the
same for all programs. -/
theorem Renaming.Relates.alike_assembler {r : Renaming} (h : r.Relates p p') (hp : p.Valid)
    (hp' : p'.Valid) {a a' : Assembler} (hlimits : a'.limits = a.limits) :
    (a'.assemble p' base).2.passes = (a.assemble p base).2.passes ∧
      Alike Error.SameKind (fun _ _ => True) (a.assemble p base).1 (a'.assemble p' base).1 ∧
      r.ShowsImage (a.assemble p base).2.image (a'.assemble p' base).2.image := by
  have halike := h.alike_assemble hp hp' base a.limits
  unfold Assembler.assemble
  rw [hlimits]
  generalize p.assemble base a.limits = outcome, p'.assemble base a.limits = outcome' at halike ⊢
  obtain ⟨result, passes⟩ := outcome
  obtain ⟨result', passes'⟩ := outcome'
  obtain ⟨hpasses, hresult⟩ := halike
  cases hresult with
  | ok himage => exact ⟨hpasses, .ok trivial, himage⟩
  | error he => exact ⟨hpasses, .error he, rfl, rfl, rfl, rfl, fun _ _ => by simp [Image.empty]⟩

/-- What is bound has an address in the image. -/
theorem Assembler.exists_labelAddress {a a' : Assembler} (hp : p.Valid)
    (h : a.assemble p base = (.ok (), a')) (hbound : p.isBound l = true) :
    ∃ address, a'.labelAddress? l = some address := by
  obtain ⟨image, passes, himage, rfl⟩ := assemble_eq_ok h
  obtain ⟨n, previous, layout, pieces, hassembly, -⟩ := Program.assemble_eq_ok himage
  obtain ⟨walk, extent, harrival⟩ := Pass.exists_arrival hassembly.run_eq
  rw [labelAddress?, hassembly.image_eq]
  exact harrival.exists_address_of_isBound hp hbound

/-- **Label identities do not show.** Take two reachable programs that have the same nodes up to the
names of labels and sections, and up to markers of labels that nothing refers to, whatever was done
to get there. Assemblers with the same limits, whatever they made before, make as many passes over
both at any base. Either both fail, for the same kind of error, or both make the same image up to
names, in which what is bound in one program is where it is in the other. -/
theorem Assembler.assemble_alike {a a' : Assembler} {r : Renaming} (hlimits : a'.limits = a.limits)
    (hp : p.Reachable) (hp' : p'.Reachable) (h : r.Relates p p') :
    (a'.assemble p' base).2.passes = (a.assemble p base).2.passes ∧
      Alike Error.SameKind (fun _ _ => True) (a.assemble p base).1 (a'.assemble p' base).1 ∧
      r.ShowsImage (a.assemble p base).2.image (a'.assemble p' base).2.image ∧
      ((a.assemble p base).1 = .ok () → ∀ l, r.keep l = true → p.isBound l = true →
        p'.isBound (r.labels l) = true ∧ ∃ address,
          (a.assemble p base).2.labelAddress? l = some address ∧
            (a'.assemble p' base).2.labelAddress? (r.labels l) = some address) := by
  obtain ⟨hpasses, hresult, himage⟩ := h.alike_assembler hp.valid hp'.valid hlimits
  refine ⟨hpasses, hresult, himage, fun hok l hkeep hbound => ?_⟩
  obtain ⟨address, haddress⟩ := exists_labelAddress hp.valid (Prod.ext hok rfl) hbound
  exact ⟨(h.isBound_eq hp.valid hp'.valid hkeep).trans hbound, address, haddress,
    (himage.label_eq l hkeep).trans haddress⟩

/-- A jump to itself in a section, with the address of the jump behind it. -/
def Program.loop : Program :=
  [.createLabel, .createSection "text" .code 16, .emit (.sectionStart ⟨0⟩), .emit (.label ⟨0⟩),
    .emit (.instruction ⟨.jmp, [.label ⟨0⟩]⟩), .emit (.address ⟨0⟩ 8)].foldl
    Operation.apply (Program.empty .long64)

/-- The same jump in a program that was cleared, with a section that is not used, a label that
nothing refers to, and an instruction that was taken out again. -/
def Program.redraftedLoop : Program :=
  [.createLabel, .createSection "old" .data 4, .emit (.label ⟨0⟩), .clear, .createLabel,
    .createLabel, .createSection "data" .data 4, .createSection "text" .code 16,
    .emit (.instruction ⟨.nop, []⟩), .emit (.sectionStart ⟨2⟩), .erase ⟨0, 0⟩, .emit (.label ⟨1⟩),
    .emit (.label ⟨2⟩), .emit (.instruction ⟨.jmp, [.label ⟨2⟩]⟩), .emit (.address ⟨2⟩ 8)].foldl
    Operation.apply (Program.empty .long64)

/-- The names in `redraftedLoop` for those in `loop`. -/
def Renaming.redrafted : Renaming where
  labels := Equiv.swap ⟨0⟩ ⟨2⟩
  sections := Equiv.swap ⟨0⟩ ⟨2⟩
  keep l := l = ⟨0⟩

/-- The loop and its redraft are the same up to names. -/
theorem Renaming.relates_redraftedLoop :
    redrafted.Relates Program.loop Program.redraftedLoop := by
  have hnodes : Program.loop.nodeList = [.sectionStart ⟨0⟩, .label ⟨0⟩,
      .instruction ⟨.jmp, [.label ⟨0⟩]⟩, .address ⟨0⟩ 8] := by
    decide +kernel
  have hsection {s : Section} (hs : .sectionStart s ∈ Program.loop.nodeList) : s = ⟨0⟩ := by
    simpa [hnodes] using hs
  refine ⟨⟨by decide +kernel, ?keep, fun s hs => ?_, fun s hs => ?_, fun s hs => ?_⟩,
    by decide +kernel⟩
  case keep =>
    rw [hnodes]
    decide +kernel
  all_goals
    obtain rfl := hsection hs
    decide +kernel

/-- The loop and its redraft are assembled alike. -/
theorem Assembler.alike_redraftedLoop :
    Program.loop.Reachable ∧ Program.redraftedLoop.Reachable ∧
      Renaming.redrafted.Relates Program.loop Program.redraftedLoop ∧
      (Assembler.assemble {} Program.loop 0x1000).1 = .ok () ∧
      (Assembler.assemble {} Program.redraftedLoop 0x1000).2.passes = 2 ∧
      ∃ address, (Assembler.assemble {} Program.loop 0x1000).2.labelAddress? ⟨0⟩ = some address ∧
        (Assembler.assemble {} Program.redraftedLoop 0x1000).2.labelAddress? ⟨2⟩ =
          some address := by
  have hp : Program.loop.Reachable := by
    refine Program.reachable_foldl .long64 fun op hop => ?_
    simp only [List.mem_cons, List.not_mem_nil, or_false] at hop
    rcases hop with rfl | rfl | rfl | rfl | rfl | rfl <;> trivial
  have hp' : Program.redraftedLoop.Reachable := by
    refine Program.reachable_foldl .long64 fun op hop => ?_
    simp only [List.mem_cons, List.not_mem_nil, or_false] at hop
    rcases hop with rfl | rfl | rfl | rfl | rfl | rfl | rfl | rfl | rfl | rfl | rfl | rfl | rfl |
      rfl | rfl <;> trivial
  have hok : (Assembler.assemble {} Program.loop 0x1000).1 = .ok () := by decide +kernel
  have hpasses : (Assembler.assemble {} Program.loop 0x1000).2.passes = 2 := by decide +kernel
  have hrelates := Renaming.relates_redraftedLoop
  obtain ⟨hsame, -, -, hbound⟩ :=
    @Assembler.assemble_alike _ _ 0x1000 {} {} _ rfl hp hp' hrelates
  obtain ⟨-, haddress⟩ := hbound hok ⟨0⟩ (by decide +kernel) (by decide +kernel)
  exact ⟨hp, hp', hrelates, hok, hsame.trans hpasses, haddress⟩

end X86Asm
