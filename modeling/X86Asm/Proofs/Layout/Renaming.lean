import Mathlib.Logic.Equiv.Defs
import X86Asm.Proofs.Encoding.Renaming
import X86Asm.Proofs.Layout.Reach

/-!
# Renaming labels and leaving out markers

A program in which labels and sections have other names, and in which labels that nothing refers to
are not placed, is laid out in the same way (`Renaming.alike_relaxFrom`). Each pass over the nodes
that are left goes from one kept node to the next as the pass over all of them does: a marker that
is left out has no bytes and does not change the slack, and what a pass does with a node depends on
the labels that the node refers to only through their marks.
-/

namespace X86Asm

variable {σ : Label → Label} {τ : Section → Section} {p p' : Program} {base : UInt64}
  {limits : Limits} {pass pass' : Pass} {previous previous' : Option Layout}
  {layout layout' : Layout} {nodes nodes' done rest : List Node} {node : Node} {w w' : Walk}
  {e : Extent} {l : Label} {α : Type}

/-! ## Renaming nodes -/

/-- The node with its labels and sections renamed. -/
def Node.rename (σ : Label → Label) (τ : Section → Section) : Node → Node
  | instruction i => instruction (i.rename σ)
  | label l => label (σ l)
  | sectionStart s => sectionStart (τ s)
  | data payload => data payload
  | align alignment filler => align alignment filler
  | address l size => address (σ l) size
  | difference l relativeTo width => difference (σ l) (σ relativeTo) width

/-- Whether the node is left in place if of the markers of labels only some are kept. -/
def Node.isKept (keep : Label → Bool) : Node → Bool
  | label l => keep l
  | _ => true

/-- A renamed node refers to the new names of its labels. -/
theorem Node.references_rename (node : Node) :
    (node.rename σ τ).references = node.references.map σ := by
  cases node with
  | instruction i =>
    simp only [rename, references, i.label?_rename]
    cases i.label? <;> rfl
  | _ => rfl

/-- Renaming leaves whether a node depends on addresses. -/
theorem Node.isAddressDependent_rename (node : Node) :
    (node.rename σ τ).isAddressDependent = node.isAddressDependent := by
  rw [isAddressDependent, references_rename, List.isEmpty_map, isAddressDependent]

/-- Renaming leaves what is an instruction. -/
theorem Node.isInstruction_rename (node : Node) :
    (node.rename σ τ).isInstruction = node.isInstruction := by
  cases node <;> rfl

/-- Only the markers of labels are left out. -/
theorem Node.eq_label_of_isKept {keep : Label → Bool} (h : node.isKept keep = false) :
    ∃ l, node = .label l ∧ keep l = false := by
  cases node with
  | label l => exact ⟨l, rfl, h⟩
  | _ => cases h

/-- A node that refers to a label is kept. -/
theorem Node.isKept_of_mem_references {keep : Label → Bool} (h : l ∈ node.references) :
    node.isKept keep = true := by
  cases node with
  | label k => cases h
  | _ => rfl

/-- Renaming everything to itself changes no node. -/
theorem Node.rename_id (node : Node) : node.rename id id = node := by
  have hoperand : Operand.rename id = id := by
    funext o
    cases o with
    | memory m => cases m; simp [Operand.rename, MemoryOperand.rename]
    | _ => rfl
  cases node with
  | instruction i => simp [rename, Instruction.rename, hoperand]
  | _ => rfl

/-- New names for labels and sections, and the labels whose markers are kept. -/
structure Renaming where
  /-- The new names of the labels. -/
  labels : Label ≃ Label
  /-- The new names of the sections. -/
  sections : Section ≃ Section
  /-- The labels whose markers are kept. -/
  keep : Label → Bool

/-- The entries of a list that belong to nodes that are kept. -/
def keptOf (keep : Label → Bool) (nodes : List Node) (xs : List α) : List α :=
  ((nodes.zip xs).filter fun row => row.1.isKept keep).map (·.2)

namespace Pass

/-- A walk has come to an address that a pass allows. -/
def Within (pass : Pass) (w : Walk) : Prop :=
  w.address < addressSpace ∧ w.address - pass.base ≤ pass.maxBytes

/-- Behind a node a pass is at an address that it allows. -/
theorem within_of_step (h : pass.step w node = .ok w') : pass.Within w' := by
  obtain ⟨e, -, -, hend, rfl⟩ := step_eq_ok.mp h
  exact checkEnd_eq_ok hend

/-- A pass gets past the marker of a label. -/
theorem step_label (h : pass.Within w) :
    pass.step w (.label l) = .ok (w.place (.label l) { length := 0 }) := by
  refine step_eq_ok.mpr ⟨_, rfl, ?_, ?_, rfl⟩
  · unfold checkGrowth
    cases pass.last? w <;> rfl
  · obtain ⟨hspace, hbytes⟩ := h
    exact (if_neg (Nat.not_le.mpr hspace)).trans (if_neg (Nat.not_lt.mpr hbytes))

end Pass

namespace Renaming

variable {r : Renaming}

/-- The node with its labels and sections renamed. -/
def renamed (r : Renaming) (node : Node) : Node := node.rename r.labels r.sections

/-- The nodes that are kept, with their labels and sections renamed. -/
def apply (r : Renaming) (nodes : List Node) : List Node :=
  (nodes.filter (Node.isKept r.keep)).map r.renamed

/-- The labels that nodes refer to are kept, and the sections that they start have the same
alignments, attributes and names under their new names in another program. -/
structure Suits (r : Renaming) (p p' : Program) (nodes : List Node) : Prop where
  mode_eq : p'.mode = p.mode
  keep : ∀ node ∈ nodes, ∀ l ∈ node.references, r.keep l = true
  alignment_eq : ∀ s, .sectionStart s ∈ nodes →
    p'.sectionAlignment? (r.sections s) = p.sectionAlignment? s
  flags_eq : ∀ s, .sectionStart s ∈ nodes → p'.sectionFlags? (r.sections s) = p.sectionFlags? s
  name_eq : ∀ s, .sectionStart s ∈ nodes → p'.sectionName? (r.sections s) = p.sectionName? s

/-- A layout of the nodes that are kept has them where a layout of all nodes has them. -/
structure Shows (r : Renaming) (nodes : List Node) (layout layout' : Layout) : Prop where
  size : layout.placements.size = nodes.length
  placements : layout'.placements.toList = keptOf r.keep nodes layout.placements.toList
  flat : ∀ row ∈ nodes.zip layout.placements.toList, row.1.isKept r.keep = false →
    row.2.shape = (0, 0)
  mark : ∀ l, r.keep l = true →
    layout'.marks.find? (r.labels l) = layout.marks.find? l

/-- A walk over the nodes that are kept is where a walk over all nodes is. -/
structure ShowsWalk (r : Renaming) (done : List Node) (w w' : Walk) : Prop
    extends r.Shows done w.placed w'.placed where
  address : w'.address = w.address
  slack : w'.slack = w.slack

/-! ## Entries of kept nodes -/

/-- A node that is kept comes first, renamed. -/
theorem apply_cons_kept (h : node.isKept r.keep = true) :
    r.apply (node :: nodes) = r.renamed node :: r.apply nodes := by
  rw [apply, List.filter_cons_of_pos h, List.map_cons, apply]

/-- A node that is left out leaves nothing behind. -/
theorem apply_cons_left_out (h : node.isKept r.keep = false) :
    r.apply (node :: nodes) = r.apply nodes := by
  rw [apply, List.filter_cons_of_neg (by rw [h]; decide), apply]

/-- The entry of a node that is kept comes first. -/
theorem keptOf_cons_kept {keep : Label → Bool} (h : node.isKept keep = true) (x : α)
    (xs : List α) : keptOf keep (node :: nodes) (x :: xs) = x :: keptOf keep nodes xs := by
  simp [keptOf, h]

/-- The entry of a node that is left out is left out. -/
theorem keptOf_cons_left_out {keep : Label → Bool} (h : node.isKept keep = false) (x : α)
    (xs : List α) : keptOf keep (node :: nodes) (x :: xs) = keptOf keep nodes xs := by
  simp [keptOf, h]

/-- What is left of the nodes is what the kept ones are renamed to. -/
theorem mem_apply :
    node ∈ r.apply nodes ↔ ∃ n ∈ nodes, n.isKept r.keep = true ∧ r.renamed n = node := by
  simp only [apply, List.mem_map, List.mem_filter, and_assoc]

/-- A label that is kept is placed under its new name by what is kept of the nodes that place it. -/
theorem label_mem_apply (hl : r.keep l = true) :
    .label (r.labels l) ∈ r.apply nodes ↔ .label l ∈ nodes := by
  rw [mem_apply]
  constructor
  · rintro ⟨n, hn, -, heq⟩
    cases n with
    | label k =>
      obtain rfl := r.labels.injective (Node.label.inj heq)
      exact hn
    | _ => cases heq
  · exact fun hmem => ⟨_, hmem, hl, rfl⟩

/-- What is kept of two stretches is what is kept of each. -/
theorem keptOf_append {keep : Label → Bool} {xs xs' : List α} (h : nodes.length = xs.length) :
    keptOf keep (nodes ++ nodes') (xs ++ xs') = keptOf keep nodes xs ++ keptOf keep nodes' xs' := by
  rw [keptOf, List.zip_append h, List.filter_append, List.map_append, keptOf, keptOf]

/-- There are as many entries as nodes that are kept. -/
theorem length_keptOf {keep : Label → Bool} {xs : List α} (h : nodes.length = xs.length) :
    (keptOf keep nodes xs).length = (nodes.filter (Node.isKept keep)).length := by
  have hfst : (nodes.zip xs).map Prod.fst = nodes := List.map_fst_zip (Nat.le_of_eq h)
  conv_rhs => rw [← hfst]
  rw [keptOf, List.length_map, List.filter_map, List.length_map]
  rfl

/-- The entry of a kept node stands behind those of the kept nodes in front of it. -/
theorem getElem?_keptOf {keep : Label → Bool} {xs : List α} (hnode : node.isKept keep = true)
    (h : (done ++ node :: rest).length = xs.length) :
    (keptOf keep (done ++ node :: rest) xs)[(done.filter (Node.isKept keep)).length]? =
      xs[done.length]? := by
  obtain ⟨front, x, back, rfl, hfront⟩ : ∃ front x back, xs = front ++ x :: back ∧
      done.length = front.length := by
    have hlt : done.length < xs.length := by
      rw [← h, List.length_append, List.length_cons]
      omega
    refine ⟨xs.take done.length, xs[done.length], xs.drop (done.length + 1), ?_, ?_⟩
    · rw [List.getElem_cons_drop, List.take_append_drop]
    · rw [List.length_take_of_le (Nat.le_of_lt hlt)]
  rw [keptOf_append hfront, ← length_keptOf hfront, hfront]
  simp [keptOf, hnode]

/-! ## Walks -/

namespace ShowsWalk

variable (h : r.ShowsWalk done w w')

include h

/-- A walk has counted the nodes that it has passed. -/
theorem count_eq : w.count = done.length := h.size

/-- The other walk has counted those of them that are kept. -/
theorem count_eq' : w'.count = (done.filter (Node.isKept r.keep)).length := by
  rw [← length_keptOf (h.size.symm.trans Array.length_toList.symm), ← h.placements]
  exact Array.length_toList.symm

/-- Where a label is does not depend on what is placed of the others. -/
theorem mark_marksAfter (hkept : node.isKept r.keep = true) (hl : r.keep l = true) :
    (w'.marksAfter (r.renamed node)).find? (r.labels l) = (w.marksAfter node).find? l := by
  cases node with
  | label k =>
    show (w'.placed.marks.insert (r.labels k) _).find? _ = (w.placed.marks.insert k _).find? l
    simp only [LabelTable.find?_insert, r.labels.apply_eq_iff_eq, h.mark l hl, h.address, h.slack]
  | _ => exact h.mark l hl

/-- The walk over all nodes has one row more. -/
theorem zip_place (node : Node) (e : Extent) :
    (done ++ [node]).zip (w.place node e).placed.placements.toList =
      done.zip w.placed.placements.toList ++
        [(node, ⟨w.address, e.length, e.padding, w.slack⟩)] := by
  simp only [Walk.place, Array.toList_push]
  rw [List.zip_append (h.size.symm.trans Array.length_toList.symm)]
  rfl

/-- Placing a node adds one entry. -/
theorem size_place (node : Node) (e : Extent) :
    (w.place node e).placed.placements.size = (done ++ [node]).length := by
  rw [List.length_append]
  exact (Array.size_push _).trans (congrArg (· + 1) h.size)

/-- A node that is left out has no length and no padding. -/
theorem flat_place (hnode : node.isKept r.keep = false → (e.length, e.padding) = (0, 0)) :
    ∀ row ∈ (done ++ [node]).zip (w.place node e).placed.placements.toList,
      row.1.isKept r.keep = false → row.2.shape = (0, 0) := by
  intro row hrow hleft
  rw [h.zip_place, List.mem_append, List.mem_singleton] at hrow
  rcases hrow with hrow | rfl
  · exact h.flat row hrow hleft
  · exact hnode hleft

/-- Placing a node that is kept. -/
theorem place (hkept : node.isKept r.keep = true) (e : Extent) :
    r.ShowsWalk (done ++ [node]) (w.place node e) (w'.place (r.renamed node) e) where
  size := h.size_place node e
  placements := by
    rw [keptOf, h.zip_place, List.filter_append, List.map_append, ← keptOf, ← h.placements]
    simp [Walk.place, hkept, h.address, h.slack]
  flat := h.flat_place fun hleft => by cases hkept.symm.trans hleft
  mark _ hl := h.mark_marksAfter hkept hl
  address := congrArg (· + e.length) h.address
  slack := congrArg (· + (e.capacity - e.padding)) h.slack

/-- Placing a marker that is left out. -/
theorem skip (hl : r.keep l = false) :
    r.ShowsWalk (done ++ [.label l]) (w.place (.label l) { length := 0 }) w' where
  size := h.size_place _ _
  placements := by
    rw [keptOf, h.zip_place, List.filter_append, List.map_append, ← keptOf, ← h.placements]
    simp [Node.isKept, hl]
  flat := h.flat_place fun _ => rfl
  mark k hk := by
    have hne : l ≠ k := by
      rintro rfl
      cases hl.symm.trans hk
    show _ = (w.placed.marks.insert l _).find? k
    rw [LabelTable.find?_insert, if_neg hne, h.mark k hk]
  address := h.address
  slack := h.slack

end ShowsWalk

/-! ## Passes -/

/-- A pass over the nodes that are kept goes by what a pass over all nodes goes by. -/
structure ShowsPass (r : Renaming) (nodes : List Node) (pass pass' : Pass) : Prop where
  suits : r.Suits pass.program pass'.program nodes
  base_eq : pass'.base = pass.base
  maxBytes_eq : pass'.maxBytes = pass.maxBytes
  previous : Option.Rel (r.Shows nodes) pass.previous pass'.previous

namespace ShowsPass

variable (hpass : r.ShowsPass nodes pass pass')

include hpass

section

variable (h : r.ShowsWalk done w w') (hnodes : nodes = done ++ node :: rest)
  (hkept : node.isKept r.keep = true)

include h hnodes hkept

/-- The pass before had a kept node in the same place. -/
theorem last?_eq : pass'.last? w' = pass.last? w := by
  have hprevious := hpass.previous
  unfold Pass.last?
  generalize pass.previous = previous, pass'.previous = previous' at hprevious ⊢
  cases hprevious with
  | none => rfl
  | some hshows =>
    have hlength : (done ++ node :: rest).length = _ :=
      (hnodes ▸ hshows.size.symm).trans Array.length_toList.symm
    rw [Option.bind_some, Option.bind_some, h.count_eq, h.count_eq', ← Array.getElem?_toList,
      ← Array.getElem?_toList, hshows.placements, hnodes, getElem?_keptOf hkept hlength]

/-- Both passes estimate a label that is kept to be in the same place. -/
theorem estimate_eq (hl : r.keep l = true) :
    pass'.estimate w' (r.labels l) = pass.estimate w l := by
  have hlast := hpass.last?_eq h hnodes hkept
  have hprevious := hpass.previous
  unfold Pass.estimate Pass.estimateAhead
  rw [h.mark l hl, h.slack, h.address, hlast]
  cases w.placed.marks.find? l with
  | some mark => rfl
  | none =>
    generalize pass.previous = previous, pass'.previous = previous' at hprevious ⊢
    cases hprevious with
    | none => rfl
    | some hshows => simp only [Option.bind_eq_bind, Option.bind_some, hshows.mark l hl]

/-- A kept node takes as many bytes. -/
theorem alike_extent : Alike Error.SameKind Eq (pass.extent w node)
    (pass'.extent w' (r.renamed node)) := by
  have hmem : node ∈ nodes := hnodes ▸ List.mem_append_right _ List.mem_cons_self
  have hgap (alignment : UInt32) : Alike Error.SameKind Eq (Pass.gapExtent w.address alignment)
      (Pass.gapExtent w'.address alignment) := by
    rw [h.address]
    cases Pass.gapExtent w.address alignment with
    | ok e => exact .ok rfl
    | error e => exact .error rfl
  cases node with
  | instruction i =>
    have hencode : Alike Error.SameKind (fun e e' => e' = e.rename r.labels)
        (i.encode pass.program.mode (pass.context w))
        ((i.rename r.labels).encode pass'.program.mode (pass'.context w')) := by
      rw [hpass.suits.mode_eq]
      refine i.alike_encode (congrArg UInt64.ofNat h.address) rfl rfl fun l hl => ?_
      -- the label of a kept instruction is kept, so both passes estimate it alike
      have hkeep := hpass.suits.keep _ hmem l (by simp [Node.references, hl])
      exact congrArg (Option.map _) (hpass.estimate_eq h hnodes hkept hkeep)
    refine hencode.bind fun e e' _ _ he => .ok ?_
    rw [he]
    rfl
  | sectionStart s =>
    show Alike _ _ (Pass.gapExtent _ _) (Pass.gapExtent _ _)
    rw [hpass.suits.alignment_eq s hmem]
    exact hgap _
  | align alignment filler => exact hgap alignment
  | _ => exact .ok rfl

/-- A kept node is placed in the same way. -/
theorem alike_step : Alike Error.SameKind (r.ShowsWalk (done ++ [node])) (pass.step w node)
    (pass'.step w' (r.renamed node)) := by
  refine (hpass.alike_extent h hnodes hkept).bind fun e _ _ _ he => ?_
  subst he
  have hgrowth : Alike Error.SameKind Eq (pass.checkGrowth w node e.length)
      (pass'.checkGrowth w' (r.renamed node) e.length) := by
    unfold Pass.checkGrowth
    rw [hpass.last?_eq h hnodes hkept, renamed, Node.isInstruction_rename]
    cases pass.last? w with
    | none => exact .ok rfl
    | some last => exact .ite (fun _ => .error rfl) fun _ => .ok rfl
  have hend : Alike Error.SameKind Eq (pass.checkEnd w.count (w.address + e.length))
      (pass'.checkEnd w'.count (w'.address + e.length)) := by
    unfold Pass.checkEnd
    rw [h.address, hpass.base_eq, hpass.maxBytes_eq]
    exact .ite (fun _ => .error rfl) fun _ => .ite (fun _ => .error rfl) fun _ => .ok rfl
  exact hgrowth.bind fun _ _ _ _ _ => hend.bind fun _ _ _ _ _ => .ok (h.place hkept e)

end

/-- A pass over the nodes that are kept goes from each to the next as the pass over all does. -/
theorem alike_foldlM (hnodes : nodes = done ++ rest) (h : r.ShowsWalk done w w')
    (hin : pass.Within w) :
    Alike Error.SameKind (r.ShowsWalk nodes) (rest.foldlM pass.step w)
      ((r.apply rest).foldlM pass'.step w') := by
  induction rest generalizing done w w' with
  | nil =>
    rw [hnodes, List.append_nil]
    exact .ok h
  | cons node rest ih =>
    have hnext : nodes = (done ++ [node]) ++ rest := by rw [hnodes, List.append_assoc]; rfl
    cases hkept : node.isKept r.keep with
    | true =>
      rw [apply_cons_kept hkept, List.foldlM_cons, List.foldlM_cons]
      refine (hpass.alike_step h hnodes hkept).bind fun w₁ w₁' hw₁ _ h₁ => ?_
      exact ih hnext h₁ (Pass.within_of_step hw₁)
    | false =>
      obtain ⟨l, rfl, hl⟩ := Node.eq_label_of_isKept hkept
      rw [apply_cons_left_out hkept, List.foldlM_cons, Pass.step_label hin]
      exact ih hnext (h.skip hl) hin

/-- The passes end alike. -/
theorem alike_run (hbase : pass.base < addressSpace) :
    Alike Error.SameKind (r.Shows nodes) (pass.run nodes) (pass'.run (r.apply nodes)) := by
  have hstart : r.ShowsWalk [] { address := pass.base } { address := pass'.base } :=
    ⟨⟨rfl, rfl, nofun, fun l _ => by simp⟩, hpass.base_eq, rfl⟩
  have hin : pass.Within { address := pass.base } :=
    ⟨hbase, by rw [Nat.sub_self]; exact Nat.zero_le _⟩
  exact (hpass.alike_foldlM rfl hstart hin).map fun _ _ h => h.toShows

end ShowsPass

/-! ## Relaxation -/

/-- The bytes of markers that are left out do not tell two layouts apart. -/
theorem map_shape_keptOf {keep : Label → Bool} {xs ys : List Placement}
    (hxs : nodes.length = xs.length) (hys : nodes.length = ys.length)
    (hflat : ∀ row ∈ nodes.zip xs, row.1.isKept keep = false → row.2.shape = (0, 0))
    (hflat' : ∀ row ∈ nodes.zip ys, row.1.isKept keep = false → row.2.shape = (0, 0)) :
    (keptOf keep nodes xs).map Placement.shape = (keptOf keep nodes ys).map Placement.shape ↔
      xs.map Placement.shape = ys.map Placement.shape := by
  induction nodes generalizing xs ys with
  | nil =>
    obtain rfl := List.length_eq_zero_iff.mp hxs.symm
    obtain rfl := List.length_eq_zero_iff.mp hys.symm
    exact Iff.rfl
  | cons node nodes ih =>
    obtain ⟨x, xs, rfl⟩ := List.exists_cons_of_length_eq_add_one hxs.symm
    obtain ⟨y, ys, rfl⟩ := List.exists_cons_of_length_eq_add_one hys.symm
    have hrest := ih (Nat.succ.inj hxs) (Nat.succ.inj hys)
      (fun row hrow => hflat row (List.mem_cons_of_mem _ hrow))
      (fun row hrow => hflat' row (List.mem_cons_of_mem _ hrow))
    cases hkept : node.isKept keep with
    | true =>
      rw [keptOf_cons_kept hkept, keptOf_cons_kept hkept]
      simp only [List.map_cons, List.cons.injEq, hrest]
    | false =>
      -- a marker that is left out is flat in both layouts
      have hx := hflat (node, x) List.mem_cons_self hkept
      have hy := hflat' (node, y) List.mem_cons_self hkept
      rw [keptOf_cons_left_out hkept, keptOf_cons_left_out hkept, hrest]
      simp only [List.map_cons, hx, hy, List.cons.injEq, true_and]

/-- A node that depends on addresses is kept. -/
theorem any_apply (r : Renaming) (nodes : List Node) :
    (r.apply nodes).any Node.isAddressDependent = nodes.any Node.isAddressDependent := by
  induction nodes with
  | nil => rfl
  | cons node nodes ih =>
    cases hkept : node.isKept r.keep with
    | true =>
      rw [apply_cons_kept hkept, List.any_cons, List.any_cons, ih, renamed,
        Node.isAddressDependent_rename]
    | false =>
      obtain ⟨l, rfl, -⟩ := Node.eq_label_of_isKept hkept
      rw [apply_cons_left_out hkept, ih]
      rfl

/-- Both relaxations settle at the same time. -/
theorem isSettled_eq (hprevious : Option.Rel (r.Shows nodes) previous previous')
    (h : r.Shows nodes layout layout') :
    Program.isSettled (r.apply nodes) previous' layout' =
      Program.isSettled nodes previous layout := by
  cases hprevious with
  | none => exact congrArg (!·) (r.any_apply nodes)
  | @some last last' hlast =>
    have hshapes := map_shape_keptOf (hlast.size.symm.trans Array.length_toList.symm)
      (h.size.symm.trans Array.length_toList.symm) hlast.flat h.flat
    rw [← hlast.placements, ← h.placements] at hshapes
    show decide (last'.shapes = layout'.shapes) = decide (last.shapes = layout.shapes)
    rw [decide_eq_decide, ← Array.toList_inj, ← Array.toList_inj]
    simpa [Layout.shapes] using hshapes

/-- Relaxation makes as many passes over the nodes that are kept, and arrives at the same places. -/
theorem alike_relaxFrom (hsuits : r.Suits p p' nodes) (fuel begun : Nat)
    (hprevious : Option.Rel (r.Shows nodes) previous previous') :
    (p'.relaxFrom base limits (r.apply nodes) fuel begun previous').2 =
        (p.relaxFrom base limits nodes fuel begun previous).2 ∧
      Alike Error.SameKind (r.Shows nodes) (p.relaxFrom base limits nodes fuel begun previous).1
        (p'.relaxFrom base limits (r.apply nodes) fuel begun previous').1 := by
  induction fuel generalizing begun previous previous' with
  | zero => exact ⟨rfl, .error rfl⟩
  | succ fuel ih =>
    have hpass : r.ShowsPass nodes (p.pass base limits previous) (p'.pass base limits previous') :=
      ⟨hsuits, rfl, rfl, hprevious⟩
    have hrun := hpass.alike_run (p.pass_base_lt base limits previous)
    unfold Program.relaxFrom
    change Alike _ _ (Pass.run ⟨p, base.toNat, limits.maxOutputBytes.toNat, previous⟩ nodes)
      (Pass.run ⟨p', base.toNat, limits.maxOutputBytes.toNat, previous'⟩ (r.apply nodes)) at hrun
    generalize Pass.run ⟨p, base.toNat, limits.maxOutputBytes.toNat, previous⟩ nodes = outcome,
      Pass.run ⟨p', base.toNat, limits.maxOutputBytes.toNat, previous'⟩ (r.apply nodes) = outcome'
      at hrun ⊢
    cases hrun with
    | error he => exact ⟨rfl, .error he⟩
    | ok h =>
      simp only [isSettled_eq hprevious h]
      split
      · exact ⟨rfl, .ok h⟩
      · exact ih (begun + 1) (.some h)

end Renaming

end X86Asm
