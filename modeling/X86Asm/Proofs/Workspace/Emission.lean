import X86Asm.Proofs.Image.Pieces
import X86Asm.Proofs.Workspace.Basic

/-!
# Emission into a workspace

Putting the bytes together in a workspace goes as putting together the pieces does
(`Workspace.Emitted.runs_emitNodes`): in front of each node the workspace holds what the pieces so
far amount to, where the section that was added last has no size yet. So each offset is where the
last section ends or behind, and the words and slices on the way have no faults.
-/

namespace X86Asm

open Guarded

/-! ## Steps and computations -/

namespace Work

variable {α β γ δ : Type} {E : Workspace → Prop} {R : α → Workspace → β → Prop}
  {S : γ → Workspace → δ → Prop} {ws : Workspace}

/-- A step has a result that is related to that of a computation, or it reports the error that the
computation ends with and leaves a workspace of some kind. -/
inductive Runs (E : Workspace → Prop) (R : α → Workspace → β → Prop) :
    EStateM.Result Halt Workspace α → Except Error β → Prop
  | ok {a : α} {ws : Workspace} {b : β} : R a ws b → Runs E R (.ok a ws) (.ok b)
  | error {e : Error} {ws : Workspace} : E ws → Runs E R (.error (.error e) ws) (.error e)

/-- What a step comes to may be told less exactly. -/
theorem Runs.imp {E' : Workspace → Prop} {R' : α → Workspace → β → Prop}
    {x : EStateM.Result Halt Workspace α} {y : Except Error β} (h : Runs E R x y)
    (hE : ∀ ws, E ws → E' ws) (hR : ∀ a ws b, R a ws b → R' a ws b) : Runs E' R' x y := by
  cases h with
  | ok h => exact .ok (hR _ _ _ h)
  | error h => exact .error (hE _ h)

/-- Steps that go as computations do so one after the other. -/
theorem Runs.bind {x : Work α} {y : Except Error β} {f : α → Work γ} {g : β → Except Error δ}
    (h : Runs E R (x.run ws) y)
    (hf : ∀ a ws' b, y = .ok b → R a ws' b → Runs E S ((f a).run ws') (g b)) :
    Runs E S ((x >>= f).run ws) (y >>= g) := by
  rw [EStateM.run_bind]
  generalize x.run ws = result at h
  cases h with
  | ok hR => exact hf _ _ _ rfl hR
  | error hE => exact .error hE

/-- What is made of the result of a computation concerns the computation only. -/
theorem Runs.return_right {x : EStateM.Result Halt Workspace γ} {y : Except Error β} {g : β → δ}
    {T : γ → Workspace → β → Prop} (h : Runs E T x y) (hT : ∀ a ws b, T a ws b → S a ws (g b)) :
    Runs E S x (y >>= fun b => pure (g b)) := by
  cases h with
  | ok h => exact .ok (hT _ _ _ h)
  | error hE => exact .error hE

/-- What is guarded leaves the workspace as it is. -/
theorem runs_guarded {T : α → β → Prop} {x : Guarded α} {y : Except Error β} (h : Follows T x y)
    (hE : E ws) : Runs E (fun a ws' b => ws' = ws ∧ T a b) ((guarded x).run ws) y := by
  cases h with
  | ok hT => exact .ok ⟨rfl, hT⟩
  | error he => exact he ▸ .error hE

/-- A guarded computation with a result writes nothing. -/
@[simp] theorem run_guarded_ok (a : α) : (guarded (.ok a)).run ws = .ok a ws := rfl

end Work

open Work

/-! ## The last section -/

/-- Gives each section but the last one the size up to the gap in front of the next one. -/
def openSections : List PlacedSection → List PlacedSection
  | [] => []
  | [s] => [s]
  | s :: t :: rest => { s with size := t.offset - t.padding - s.offset } :: openSections (t :: rest)

/-- A section behind others closes the one that was the last. -/
theorem openSections_snoc (sections : List PlacedSection) (s : PlacedSection) :
    openSections (sections ++ [s]) = closeSections (s.offset - s.padding) sections ++ [s] := by
  fun_induction closeSections (s.offset - s.padding) sections with
  | case1 => rfl
  | case2 t => rfl
  | case3 t t' rest ih => exact congrArg (_ :: ·) ih

/-- Opening leaves the offsets of the sections. -/
theorem exists_openSections_cons (s : PlacedSection) (sections : List PlacedSection) :
    ∃ size rest, openSections (s :: sections) = { s with size } :: rest := by
  cases sections with
  | nil => exact ⟨_, _, rfl⟩
  | cons t rest => exact ⟨_, _, rfl⟩

/-- If no section starts behind an offset, the last one can be closed there. -/
theorem Workspace.closeLast_openSections {offset : Nat} {sections : List PlacedSection}
    (h : ∀ s ∈ sections, s.offset.toNat ≤ offset) :
    closeLast offset (openSections sections) =
      .ok (closeSections (UInt64.ofNat offset) sections) := by
  fun_induction openSections sections with
  | case1 => rfl
  | case2 s =>
    have hle := h s List.mem_cons_self
    have hsize : UInt64.ofNat (offset - s.offset.toNat) = UInt64.ofNat offset - s.offset := by
      rw [UInt64.ofNat_sub hle, UInt64.ofNat_toNat]
    simp only [closeLast, sub_eq hle, ok_bind, closeSections, hsize]
    rfl
  | case3 s t rest ih =>
    have hrest := ih fun s' hs' => h s' (List.mem_cons_of_mem _ hs')
    obtain ⟨size, rest', heq⟩ := exists_openSections_cons t rest
    rw [heq] at hrest ⊢
    rw [closeLast, hrest]
    rfl

/-! ## Gaps in code -/

/-- The padding of code is a row of the longest instructions that fit. -/
theorem codePadding_step {mode : Mode} (hmode : mode.isReal = false) {n : Nat} (hn : 0 < n) :
    codePadding mode n = longNop (min n 9) ++ codePadding mode (n - min n 9) := by
  simp only [codePadding, hmode, Bool.false_eq_true, if_false]
  obtain hlt | hge := Nat.lt_or_ge n 9
  · rw [Nat.min_eq_left (Nat.le_of_lt hlt), Nat.sub_self, Nat.div_eq_of_lt hlt,
      Nat.mod_eq_of_lt hlt]
    exact (List.append_nil _).symm
  · obtain ⟨m, rfl⟩ := Nat.exists_eq_add_of_le hge
    rw [Nat.min_eq_right hge, Nat.add_sub_cancel_left, Nat.add_mod_left,
      Nat.add_div_left m (by decide), List.replicate_succ, List.flatten_cons, List.append_assoc]

/-- Outside of real mode a gap is filled from the table with the bytes of a code gap. -/
theorem nops_eq {mode : Mode} (hmode : mode.isReal = false) (n : Nat) :
    nops n = .ok (codePadding mode n) := by
  fun_induction nops n with
  | case1 n hn ih =>
    have hentry : entry nopTable (min n 9) = .ok (longNop (min n 9)) := by
      have hlt : min n 9 < 10 := by omega
      refine entry_eq ?_
      simp [nopTable, hlt]
    rw [hentry, ok_bind, ih, codePadding_step hmode hn]
    rfl
  | case2 n hn =>
    obtain rfl : n = 0 := by omega
    simp [codePadding, hmode, longNop]
    rfl

/-- A filler writes its bytes, without a fault. -/
theorem Filler.write_eq (mode : Mode) (n : Nat) (filler : Filler) :
    filler.write mode n = .ok (filler.bytes mode n) := by
  cases filler with
  | code =>
    cases hmode : mode.isReal with
    | true => simp [Filler.write, Filler.bytes, codePadding, hmode]; rfl
    | false => simpa [Filler.write, Filler.bytes, hmode] using nops_eq hmode n
  | byte value => rfl

/-! ## What has been emitted -/

namespace Workspace

variable {b : Blueprint} {place : Placement} {node : Node} {i : Instruction} {l : Label}
  {ws₀ ws : Workspace} {code : List UInt8} {pieces : List Piece} {piece : Piece}

/-- A workspace has the limits and passes of another one, whatever else has been written. -/
structure Keeps (ws₀ ws : Workspace) : Prop where
  limits_eq : ws.limits = ws₀.limits
  passes_eq : ws.passes = ws₀.passes

/-- What the bytes and the workspace are after some pieces, if it has been `ws₀` in front of them:
their bytes, their relocations, and their sections with the last one open. -/
structure Emitted (ws₀ : Workspace) (pieces : List Piece) (code : List UInt8) (ws : Workspace) :
    Prop where
  code_eq : code = pieces.flatMap Piece.bytes
  state_eq : ws =
    { ws₀ with
      sections := openSections (pieces.filterMap Piece.opened)
      relocations := pieces.filterMap Piece.relocation }
  offset_le : ∀ s ∈ pieces.filterMap Piece.opened, s.offset.toNat ≤ code.length

/-- Behind `code`, which the pieces so far amount to, another piece has been emitted. -/
structure Adds (ws₀ : Workspace) (pieces : List Piece) (code code' : List UInt8) (ws : Workspace)
    (piece : Piece) : Prop where
  code_eq : code' = code ++ piece.bytes
  emitted : Emitted ws₀ (pieces ++ [piece]) code' ws

/-- The workspace has the addresses that the pieces are made with. -/
structure Has (ws : Workspace) (b : Blueprint) : Prop where
  base_eq : ws.base = b.base
  labels : b.program.Tabulates ws.labels b.addresses

namespace Emitted

variable (h : Emitted ws₀ pieces code ws)

include h

/-- The limits and the number of passes stay. -/
theorem keeps : Keeps ws₀ ws := by
  obtain rfl := h.state_eq
  exact ⟨rfl, rfl⟩

/-- What has been emitted goes by the same tables. -/
theorem has (hb : ws₀.Has b) : ws.Has b := by
  obtain rfl := h.state_eq
  exact ⟨hb.base_eq, hb.labels⟩

/-- Bytes without a section are added, and the relocation of the piece if it has one. -/
theorem addBytes (hopened : piece.opened = none) :
    Emitted ws₀ (pieces ++ [piece]) (code ++ piece.bytes)
      { ws with relocations := ws.relocations ++ piece.relocation.toList } where
  code_eq := by simp [h.code_eq]
  state_eq := by
    obtain rfl := h.state_eq
    cases hr : piece.relocation <;> simp [hopened, hr]
  offset_le s hs := by
    have hle := h.offset_le s (by simpa [hopened] using hs)
    rw [List.length_append]
    omega

/-- A piece that opens no section and has no relocation adds its bytes only. -/
theorem addPlain (piece : Piece) (hopened : piece.opened = none)
    (hrelocation : piece.relocation = none) :
    Emitted ws₀ (pieces ++ [piece]) (code ++ piece.bytes) ws := by
  have hadd := h.addBytes hopened
  rwa [hrelocation, Option.toList_none, List.append_nil] at hadd

/-- A relocation is written, and the bytes of its piece are added. -/
theorem run_addRelocation (piece : Piece) {r : Relocation} (hopened : piece.opened = none)
    (hrelocation : piece.relocation = some r) :
    ∃ ws', (addRelocation r).run ws = .ok () ws' ∧
      Emitted ws₀ (pieces ++ [piece]) (code ++ piece.bytes) ws' := by
  have hadd := h.addBytes hopened
  rw [hrelocation, Option.toList_some] at hadd
  exact ⟨_, rfl, hadd⟩

/-- A section is written behind the bytes that fill the gap in front of it. -/
theorem run_addSection (piece : Piece) {s : PlacedSection} (hopened : piece.opened = some s)
    (hrelocation : piece.relocation = none)
    (hoffset : s.offset.toNat ≤ code.length + piece.bytes.length)
    (hstart : s.offset - s.padding = UInt64.ofNat code.length) :
    ∃ ws', (addSection code.length s).run ws = .ok () ws' ∧
      Emitted ws₀ (pieces ++ [piece]) (code ++ piece.bytes) ws' := by
  -- the section before ends where the gap in front of this one starts
  have hclose : closeLast code.length ws.sections =
      .ok (closeSections (UInt64.ofNat code.length) (pieces.filterMap Piece.opened)) := by
    obtain rfl := h.state_eq
    exact closeLast_openSections h.offset_le
  have hrun : (addSection code.length s).run ws = .ok () { ws with
      sections :=
        closeSections (UInt64.ofNat code.length) (pieces.filterMap Piece.opened) ++ [s] } := by
    simp [addSection, hclose]
  refine ⟨_, hrun, ?_, ?_, ?_⟩
  · simp [h.code_eq]
  · obtain rfl := h.state_eq
    simp [hopened, hrelocation, openSections_snoc, hstart]
  · intro s' hs'
    simp only [List.filterMap_append, List.filterMap_cons, hopened, List.filterMap_nil,
      List.mem_append, List.mem_singleton] at hs'
    rw [List.length_append]
    rcases hs' with hs' | rfl
    · exact Nat.le_trans (h.offset_le s' hs') (Nat.le_add_right _ _)
    · exact hoffset

end Emitted

/-! ## Emission goes as the making of pieces -/

section Content

variable (hb : ws.Has b) (hkeeps : Keeps ws₀ ws)

include hb in
/-- The array of addresses is looked up as the table is. -/
theorem Has.lookup_eq (l : Label) :
    lookup b.program ws.labels l = .ok (b.addresses.find? l) := by
  unfold lookup
  cases hl : b.program.labelIndex? l with
  | none => rw [hb.labels.outside l hl]; rfl
  | some i => exact hb.labels.entry_eq hl

include hb hkeeps in
/-- Resolving a label reads the workspace and leaves it as it is. -/
theorem Has.runs_resolve (l : Label) :
    Runs (Keeps ws₀) (fun a ws' a' => ws' = ws ∧ a = a') ((resolve b.program l).run ws)
      (b.resolve l) := by
  simp only [resolve, EStateM.run_bind, EStateM.run_get, hb.lookup_eq, run_guarded_ok,
    Blueprint.resolve]
  cases b.addresses.find? l with
  | none => exact .error hkeeps
  | some address => exact .ok ⟨rfl, rfl⟩

include hkeeps in
/-- Encoding an instruction at a site leaves the workspace as it is. -/
theorem runs_writeAt (i : Instruction) (ctx : Context) :
    Runs (Keeps ws₀) (fun e ws' e' => ws' = ws ∧ e = e')
      ((writeAt b.program i ctx.site).run ws) (b.encode i ctx) := by
  rw [writeAt, Instruction.write_eq]
  exact runs_guarded ((follows_embed _).mapReport _) hkeeps

include hb hkeeps

/-- So does encoding it at its place. -/
theorem Has.runs_writeInPlace (place : Placement) (i : Instruction) :
    Runs (Keeps ws₀) (fun e ws' e' => ws' = ws ∧ e = e')
      ((writeInPlace b.program place i).run ws) (b.encodeAt place i) := by
  have hlookup : lookup b.program ws.labels = fun l => .ok (b.addresses.find? l) :=
    funext hb.lookup_eq
  have hrun : (writeInPlace b.program place i).run ws =
      (writeAt b.program i (b.context place).site >>= fun first =>
        if first.bytes.length < place.length then
          writeAt b.program i { b.context place with near := true }.site
        else pure first).run ws := by
    simp only [writeInPlace, EStateM.run_bind, EStateM.run_get, hlookup]
    rfl
  rw [hrun, Blueprint.encodeAt]
  refine (runs_writeAt hkeeps i _).bind fun first ws' first' _ hfirst => ?_
  obtain ⟨rfl, rfl⟩ := hfirst
  split
  · exact runs_writeAt hkeeps i _
  · exact .ok ⟨rfl, rfl⟩

end Content

namespace Emitted

variable (h : Emitted ws₀ pieces code ws) (hb : ws₀.Has b)

include h hb

/-- Emitting an instruction adds its piece. -/
theorem runs_emitInstruction (hplace : b.offset place = code.length) (i : Instruction) :
    Runs (Keeps ws₀) (Adds ws₀ pieces code)
      ((emitInstruction b.program place i code).run ws) (b.instructionPiece place i) := by
  unfold emitInstruction Blueprint.instructionPiece
  refine ((h.has hb).runs_writeInPlace h.keeps place i).bind fun e ws' e' _ he => ?_
  obtain ⟨rfl, rfl⟩ := he
  rcases e with ⟨bytes, fixup⟩
  cases fixup with
  | none => exact .ok ⟨rfl, h.addPlain _ rfl rfl⟩
  | some f =>
    obtain ⟨ws', hrun, hadd⟩ := h.run_addRelocation
      { bytes
        relocation := some
          ⟨UInt64.ofNat (b.offset place + f.offset), UInt8.ofNat f.width, f.label, f.kind⟩ } rfl rfl
    simp only [EStateM.run_bind, ← hplace, hrun]
    exact .ok ⟨rfl, hadd⟩

/-- Emitting the address of a label adds its piece. -/
theorem runs_emitAddress (hplace : b.offset place = code.length) (l : Label) {size : UInt8}
    (hsize : size.toNat ≤ 8) :
    Runs (Keeps ws₀) (Adds ws₀ pieces code)
      ((emitAddress b.program l size code).run ws) (b.addressPiece place l size) := by
  unfold emitAddress Blueprint.addressPiece
  refine ((h.has hb).runs_resolve h.keeps l).bind fun address ws' address' _ haddress => ?_
  obtain ⟨rfl, rfl⟩ := haddress
  by_cases hfits : addressFits b.program.mode size address
  · obtain ⟨ws', hrun, hadd⟩ := h.run_addRelocation
      { bytes := littleEndian size.toNat address.toNat
        relocation := some ⟨UInt64.ofNat (b.offset place), size, l, .absolute⟩ } rfl rfl
    simp only [hfits, if_true, slice_littleEndian hsize, EStateM.run_bind, run_guarded_ok,
      ← hplace, hrun]
    exact .ok ⟨rfl, hadd⟩
  · rw [if_neg hfits, if_neg hfits]
    exact .error h.keeps

/-- Emitting a difference of labels adds its piece. -/
theorem runs_emitDifference (hplace : b.offset place = code.length) (l relativeTo : Label)
    (width : Width) :
    Runs (Keeps ws₀) (Adds ws₀ pieces code)
      ((emitDifference b.program l relativeTo width code).run ws)
      (b.differencePiece place l relativeTo width) := by
  unfold emitDifference Blueprint.differencePiece
  refine ((h.has hb).runs_resolve h.keeps l).bind fun address ws' address' _ haddress => ?_
  obtain ⟨rfl, rfl⟩ := haddress
  refine ((h.has hb).runs_resolve h.keeps relativeTo).bind fun origin ws' origin' _ horigin => ?_
  obtain ⟨rfl, rfl⟩ := horigin
  have hwidth : width.bytes ≤ 8 := by cases width <;> decide
  obtain ⟨ws', hrun, hadd⟩ := h.run_addRelocation
    { bytes := littleEndian width.bytes (address - origin).toNat
      relocation := some
        ⟨UInt64.ofNat (b.offset place), UInt8.ofNat width.bytes, l, .relative⟩ } rfl rfl
  simp only [slice_littleEndian hwidth, EStateM.run_bind, run_guarded_ok, ← hplace, hrun]
  exact .ok ⟨rfl, hadd⟩

omit hb in
/-- Emitting the start of a section closes the section before and adds the piece, which cannot fail.
-/
theorem runs_emitSection (hplace : b.offset place = code.length)
    (hend : place.address + place.padding < addressSpace) (s : Section) :
    Runs (Keeps ws₀) (Adds ws₀ pieces code)
      ((emitSection b.program place s code).run ws) (.ok (b.sectionPiece place s)) := by
  have hfilled (byte : UInt8) :
      (code ++ List.replicate place.padding byte).length = b.offset place + place.padding := by
    rw [List.length_append, List.length_replicate, hplace]
  obtain ⟨ws', hrun, hadd⟩ := h.run_addSection (b.sectionPiece place s) rfl rfl
    (by
      simp only [Blueprint.sectionPiece, List.length_replicate, ← hplace]
      exact Nat.mod_le _ _)
    (by
      simp only [UInt64.ofNat_add, UInt64.add_sub_cancel, hplace])
  simp only [emitSection, EStateM.run_bind, add_eq hend, run_guarded_ok, hfilled]
  rw [hrun]
  exact .ok ⟨rfl, hadd⟩

/-- A node is emitted as its piece is made, whatever its length. -/
theorem runs_emitContent (hplace : b.offset place = code.length)
    (hend : place.address + place.padding < addressSpace) (hnode : node.InDomain) :
    Runs (Keeps ws₀) (Adds ws₀ pieces code)
      ((emitContent b.program place node code).run ws) (b.pieceOf place node) := by
  cases node with
  | instruction i => exact h.runs_emitInstruction hb hplace i
  | label l =>
    have hadd := h.addPlain { bytes := [] } rfl rfl
    rw [List.append_nil] at hadd
    exact .ok ⟨(List.append_nil _).symm, hadd⟩
  | sectionStart s => exact h.runs_emitSection hplace hend s
  | data payload => exact .ok ⟨rfl, h.addPlain _ rfl rfl⟩
  | align alignment filler =>
    simp only [emitContent, Filler.write_eq, EStateM.run_bind, run_guarded_ok]
    exact .ok ⟨rfl, h.addPlain _ rfl rfl⟩
  | address l size =>
    refine h.runs_emitAddress hb hplace l ?_
    have hmem : size ∈ [2, 4, 8] := hnode
    simp only [List.mem_cons, List.not_mem_nil, or_false] at hmem
    rcases hmem with rfl | rfl | rfl <;> decide
  | difference l relativeTo width => exact h.runs_emitDifference hb hplace l relativeTo width

/-- A node is emitted as its piece is made, and has to be as long as its place. -/
theorem runs_emitNode (hplace : b.offset place = code.length)
    (hend : place.address + place.padding < addressSpace) (hnode : node.InDomain) (index : Nat) :
    Runs (Keeps ws₀)
      (fun code' ws' piece => code'.length = code.length + place.length ∧
        Emitted ws₀ (pieces ++ [piece]) code' ws')
      ((emitNode b.program index place node code).run ws) (b.piece index place node) := by
  unfold emitNode Blueprint.piece
  refine (h.runs_emitContent hb hplace hend hnode).bind fun code' ws' piece _ hpiece => ?_
  obtain ⟨rfl, hadd⟩ := hpiece
  have hlength : sub (code ++ piece.bytes).length code.length = .ok piece.bytes.length := by
    rw [List.length_append, sub_eq (Nat.le_add_right _ _), Nat.add_sub_cancel_left]
  simp only [hlength, EStateM.run_bind, run_guarded_ok]
  by_cases heq : piece.bytes.length = place.length
  · rw [if_pos heq, if_pos heq]
    exact .ok ⟨by rw [List.length_append, heq], hadd⟩
  · rw [if_neg heq, if_neg heq]
    exact .error hadd.keeps

end Emitted

/-- Places one behind the other from an address on, within the address space. -/
def InSequence : (address : Nat) → List (Node × Placement) → Prop
  | _, [] => True
  | address, (node, place) :: rest =>
    place.address = address ∧ address + place.padding < addressSpace ∧ node.InDomain ∧
      InSequence (address + place.length) rest

/-- **Emission goes as the making of pieces.** Nodes in sequence are emitted as their pieces are
made, or the same error is reported. -/
theorem Emitted.runs_emitNodes (h : Emitted ws₀ pieces code ws) (hb : ws₀.Has b)
    {items : List (Node × Placement)} (hitems : InSequence (b.base.toNat + code.length) items)
    (index : Nat) :
    Runs (Keeps ws₀) (fun code' ws' rest => Emitted ws₀ (pieces ++ rest) code' ws')
      ((emitNodes b.program index items code).run ws) (b.pieces index items) := by
  induction items generalizing pieces code ws index with
  | nil =>
    refine .ok ?_
    rwa [List.append_nil]
  | cons item items ih =>
    obtain ⟨node, place⟩ := item
    obtain ⟨haddress, hend, hnode, hrest⟩ := hitems
    have hplace : b.offset place = code.length := by
      rw [Blueprint.offset, haddress, Nat.add_sub_cancel_left]
    unfold emitNodes Blueprint.pieces
    refine (h.runs_emitNode hb hplace (haddress ▸ hend) hnode index).bind
      fun code' ws' piece _ hpiece => ?_
    obtain ⟨hlength, hadd⟩ := hpiece
    -- the next node starts where the bytes so far end
    have hnext : InSequence (b.base.toNat + code'.length) items := by
      rwa [hlength, ← Nat.add_assoc]
    refine (ih hadd hnext (index + 1)).return_right fun code'' ws'' rest hrest => ?_
    rwa [List.append_assoc] at hrest

/-- The image is put together out of what has been emitted. -/
theorem Emitted.run_finish (h : Emitted ws₀ pieces code ws) (b : Blueprint) :
    (finish code).run ws = .ok ()
      { ws₀ with
        code := (Image.ofPieces b pieces).code
        sections := (Image.ofPieces b pieces).sections
        relocations := (Image.ofPieces b pieces).relocations } := by
  obtain ⟨rfl, rfl, hle⟩ := h
  have hclose := closeLast_openSections hle
  simp only [finish, EStateM.run_bind, EStateM.run_get, hclose, run_guarded_ok,
    EStateM.run_modify, Image.ofPieces]

/-- All nodes are emitted as the image is put together. -/
theorem Has.runs_emit (hb : ws.Has b) (hsections : ws.sections = [])
    (hrelocations : ws.relocations = []) {sheet : Sheet} {total : Nat}
    (htotal : sheet.total ws.base = .ok total)
    (hitems : InSequence b.base.toNat (b.program.nodeList.zip sheet.placements.toList)) :
    Runs (Keeps ws)
      (fun _ ws' (image : Image) => ∃ pieces, image = Image.ofPieces b pieces ∧ ws' =
        { ws with
          code := image.code
          sections := image.sections
          relocations := image.relocations })
      ((emit b.program sheet).run ws)
      (b.pieces 0 (b.program.nodeList.zip sheet.placements.toList) >>= fun pieces =>
        pure (Image.ofPieces b pieces)) := by
  have hstart : Emitted ws [] [] ws := by
    refine ⟨rfl, ?_, by simp⟩
    cases ws
    cases hsections
    cases hrelocations
    rfl
  have hrun : (emit b.program sheet).run ws =
      (emitNodes b.program 0 (b.program.nodeList.zip sheet.placements.toList) [] >>=
        finish).run ws := by
    simp only [emit, EStateM.run_bind, EStateM.run_get, htotal, run_guarded_ok]
  rw [hrun]
  refine (hstart.runs_emitNodes hb hitems 0).bind fun code ws' pieces _ h => ?_
  rw [List.nil_append] at h
  rw [h.run_finish b]
  exact .ok ⟨pieces, rfl, rfl⟩

end Workspace

end X86Asm
