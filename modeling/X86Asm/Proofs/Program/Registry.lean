import X86Asm.Proofs.Program.Reachable

/-!
# Where labels and sections are bound

A program keeps beside its nodes which node places a label and which starts a section.
`Registry` says that these tables and the list of the nodes tell the same, and `reachable_registry`
that they do whatever was done to the program. So a label or section is refused as bound already
exactly if a node of the list places it, and is taken anywhere once that node is gone.

Labels and sections are treated at once through `Program.place?`, the node recorded for what a
marker places.
-/

namespace X86Asm

/-- The refusal of a label or section that a node places already. -/
def Node.alreadyBound? : Node → Option Error
  | .label l => some (.alreadyBound "label" l.id)
  | .sectionStart s => some (.alreadyBound "section" s.id)
  | _ => none

/-- There is a refusal for every kind of marker. -/
theorem Node.exists_alreadyBound {m : Node} (h : m.isMarker) : ∃ e, m.alreadyBound? = some e := by
  cases m with
  | label l => exact ⟨_, rfl⟩
  | sectionStart s => exact ⟨_, rfl⟩
  | _ => cases h

namespace Program

variable {p p' : Program} {id : NodeId} {m node : Node} {prev : Option NodeId} {e : Error}

/-! ## Places for a node -/

/-- Where a node can be put in. -/
inductive Spot where
  /-- At the insertion point, as labels and sections are bound. -/
  | insertionPoint
  /-- Directly behind a node. -/
  | behind (position : NodeId)
  /-- Directly in front of a node. -/
  | inFrontOf (position : NodeId)

namespace Spot

/-- Puts a node in. -/
def put : Spot → Node → Edit NodeId
  | insertionPoint, node => emit node
  | behind position, node => insertAfter position node
  | inFrontOf position, node => insertBefore position node

/-- A label is bound by putting it in at the insertion point. -/
theorem put_insertionPoint_label (l : Label) : insertionPoint.put (.label l) = bindLabel l :=
  (bindLabel_eq_emit l).symm

/-- A section is bound by putting it in at the insertion point. -/
theorem put_insertionPoint_sectionStart (s : Section) :
    insertionPoint.put (.sectionStart s) = bindSection s :=
  (bindSection_eq_emit s).symm

/-- The program has the place. -/
def Open (p : Program) : Spot → Prop
  | insertionPoint => True
  | behind position | inFrontOf position => position ∈ p.toList.map Prod.fst

end Spot

/-- Moving the insertion point changes no outcome. -/
theorem moveBehind_fst (outcome : Except Error NodeId × Program) :
    (moveBehind outcome).1 = outcome.1 := by
  rcases outcome with ⟨_ | id, q⟩ <;> rfl

/-- Moving the insertion point changes no node. -/
theorem moveBehind_nodes (outcome : Except Error NodeId × Program) :
    (moveBehind outcome).2.nodes = outcome.2.nodes := by
  rcases outcome with ⟨_ | id, q⟩ <;> rfl

/-- Inserting behind a node of the program is linking behind it. -/
theorem insertAfter_of_contains (h : p.nodes.contains id = true) :
    insertAfter id node p = link (some id) node p := by
  rw [insertAfter, if_pos h]

/-- Wherever a node is put in, it is linked behind some node, or in front of all. -/
theorem Valid.exists_link (h : p.Valid) {spot : Spot} (hopen : spot.Open p) :
    ∃ prev, ∀ node, (spot.put node p).1 = (Program.link prev node p).1 ∧
      (spot.put node p).2.nodes = (Program.link prev node p).2.nodes := by
  cases spot with
  | insertionPoint =>
    show ∃ prev, ∀ node, (Program.emit node p).1 = _ ∧ (Program.emit node p).2.nodes = _
    unfold Program.emit
    cases hpoint : p.insertion with
    | tail => exact ⟨p.tail, fun _ => ⟨rfl, rfl⟩⟩
    | front => exact ⟨none, fun _ => ⟨moveBehind_fst _, moveBehind_nodes _⟩⟩
    | after id =>
      -- the node in front of the insertion point is in the program
      have hlive := h.contains_iff.mpr (h.insertion_listed id hpoint)
      refine ⟨some id, fun node => ?_⟩
      dsimp only
      rw [moveBehind_fst, moveBehind_nodes, insertAfter_of_contains hlive]
      exact ⟨rfl, rfl⟩
  | behind position =>
    have hlive := h.contains_iff.mpr hopen
    refine ⟨some position, fun node => ?_⟩
    rw [Spot.put, insertAfter_of_contains hlive]
    exact ⟨rfl, rfl⟩
  | inFrontOf position =>
    obtain ⟨entry, he⟩ := Arena.contains_eq_true_iff.mp (h.contains_iff.mpr hopen)
    refine ⟨entry.prev, fun node => ?_⟩
    rw [Spot.put, Program.insertBefore, he]
    exact ⟨rfl, rfl⟩

/-! ## Markers that have a place -/

/-- A marker has a place exactly if the list has it. -/
theorem place?_isSome_iff (h : p.Valid) (hm : m.isMarker) :
    (p.place? m).isSome = true ↔ m ∈ p.nodeList := by
  rw [Option.isSome_iff_exists, nodeList, List.mem_map]
  constructor
  · rintro ⟨id, hid⟩
    exact ⟨(id, m), (h.place_iff m id hm).mp hid, rfl⟩
  · rintro ⟨⟨id, n⟩, hlisted, rfl⟩
    exact ⟨id, (h.place_iff n id hm).mpr hlisted⟩

/-- Only labels and sections are known. -/
theorem knows_isMarker (h : p.knows m = true) : m.isMarker := by
  cases m with
  | label l => rfl
  | sectionStart s => rfl
  | _ => cases h

/-- A marker of the program is refused exactly if it has a place. -/
theorem check_of_knows (h : p.knows m = true) (he : m.alreadyBound? = some e) :
    p.check m = if (p.place? m).isSome then .error e else .ok () := by
  cases m with
  | label l =>
    obtain ⟨entry, hl⟩ := Option.isSome_iff_exists.mp h
    cases he
    have hcheck : p.check (.label l) = checkUnbound "label" l.id entry.node := by
      show p.checkContent (.label l) = _
      simp only [checkContent, hl]
    rw [hcheck, place?, labelNode?, hl, Option.bind_some]
    cases entry.node <;> simp [checkUnbound]
  | sectionStart s =>
    obtain ⟨entry, hs⟩ := Option.isSome_iff_exists.mp h
    cases he
    have hcheck : p.check (.sectionStart s) = checkUnbound "section" s.id entry.node := by
      show p.checkContent (.sectionStart s) = _
      simp only [checkContent, hs]
    rw [hcheck, place?, sectionNode?, hs, Option.bind_some]
    cases entry.node <;> simp [checkUnbound]
  | _ => cases he

/-- A node that passes the check is linked if there is a slot for it. -/
theorem link_fst_of_check (h : p.check node = .ok ()) :
    (link prev node p).1 = Prod.fst <$> p.nodes.insert ⟨node, prev, p.follower prev⟩ := by
  unfold link
  rw [h]
  dsimp only
  split <;> rename_i hins <;> rw [hins] <;> rfl

/-- A node that does not pass the check is refused for that. -/
theorem link_fst_of_check_error (h : p.check node = .error e) :
    (link prev node p).1 = .error e := by
  unfold link
  rw [h]

/-- Wherever a marker of the program is put in, it is refused as bound already exactly if a node of
the list is the same. -/
theorem Valid.put_eq_alreadyBound_iff (h : p.Valid) (hknows : p.knows m = true)
    (he : m.alreadyBound? = some e) {spot : Spot} (hopen : spot.Open p) :
    (spot.put m p).1 = .error e ↔ m ∈ p.nodeList := by
  obtain ⟨prev, hlink⟩ := h.exists_link hopen
  rw [(hlink m).1, ← place?_isSome_iff h (knows_isMarker hknows)]
  have hcheck := check_of_knows hknows he
  split at hcheck
  · rename_i hplaced
    exact iff_of_true (link_fst_of_check_error hcheck) hplaced
  · rename_i hfree
    refine iff_of_false (fun herror => ?_) hfree
    rw [link_fst_of_check hcheck, map_eq_error_iff] at herror
    -- the only other refusal is for want of a slot
    obtain ⟨rfl, -⟩ := Arena.insert_eq_error herror
    cases m <;> cases he

/-- Binding a label of the program is refused exactly if a node of the list places it. -/
theorem Valid.bindLabel_eq_alreadyBound_iff (h : p.Valid) {l : Label}
    (hl : p.ownsLabel l = true) :
    (bindLabel l p).1 = .error (.alreadyBound "label" l.id) ↔ .label l ∈ p.nodeList := by
  rw [ownsLabel_eq] at hl
  rw [← Spot.put_insertionPoint_label]
  exact h.put_eq_alreadyBound_iff (m := .label l) hl rfl trivial

/-- Binding a section of the program is refused exactly if a node of the list starts it. -/
theorem Valid.bindSection_eq_alreadyBound_iff (h : p.Valid) {s : Section}
    (hs : (p.section? s).isSome = true) :
    (bindSection s p).1 = .error (.alreadyBound "section" s.id) ↔
      .sectionStart s ∈ p.nodeList := by
  rw [← Spot.put_insertionPoint_sectionStart]
  exact h.put_eq_alreadyBound_iff (m := .sectionStart s) hs rfl trivial

/-! ## Taking a marker out -/

/-- Relinking frees no slot and takes none. -/
theorem free_relink (p : Program) (left right onward back : Option NodeId) (node : Node)
    (place : Option NodeId) :
    (((p.setNext left onward).setPrev right back).setPlace node place).nodes.free =
      p.nodes.free := by
  rw [setPlace_nodes]
  cases left <;> cases right <;> simp [setNext, setPrev]

/-- Taking a node out leaves the labels and sections of the program. -/
theorem knows_erase (he : erase id p = (.ok node, p')) (m : Node) : p'.knows m = p.knows m := by
  obtain ⟨entry, nodes, -, -, rfl⟩ := erase_eq_ok he
  rw [knows_setPlace, knows_relink]
  cases m <;> rfl

/-- A node that is taken out leaves a slot for another. -/
theorem free_erase (he : erase id p = (.ok node, p')) :
    p'.nodes.free = id.index :: p.nodes.free := by
  obtain ⟨entry, nodes, herase, -, rfl⟩ := erase_eq_ok he
  obtain ⟨-, rfl⟩ := Arena.erase_cases herase
  exact free_relink ..

/-- A marker that is taken out is in the list no more. -/
theorem Valid.not_mem_of_erase (h : p.Valid) (he : Program.erase id p = (.ok m, p'))
    (hm : m.isMarker) : m ∉ p'.nodeList := by
  obtain ⟨before, after, hlist, hlist', -⟩ := h.erase he
  intro hmem
  obtain ⟨⟨k, n⟩, hk, rfl⟩ := List.mem_map.mp hmem
  have hold {j : NodeId} (hj : (j, n) ∈ p.toList) : p.place? n = some j :=
    (h.place_iff n j hm).mpr hj
  have hnodup := (List.perm_middle.map Prod.fst).nodup_iff.mp (hlist ▸ h.represents.nodup)
  rw [hlist'] at hk
  have hwas : (k, n) ∈ p.toList := by
    rw [hlist]
    simp only [List.mem_append, List.mem_cons] at hk ⊢
    exact hk.imp_right .inr
  obtain rfl : id = k := Option.some.inj ((hold (by simp [hlist])).symm.trans (hold hwas))
  exact (List.nodup_cons.mp hnodup).1 (List.mem_map.mpr ⟨_, hk, rfl⟩)

/-- A node of the list can be taken out. -/
theorem Valid.exists_erase (h : p.Valid) (hlisted : (id, node) ∈ p.toList) :
    ∃ p', Program.erase id p = (.ok node, p') := by
  obtain ⟨entry, he, rfl⟩ := h.represents.get?_of_mem hlisted
  unfold Program.erase Arena.erase
  rw [he]
  exact ⟨_, rfl⟩

/-- A marker that was taken out can be put in wherever the program has a place. -/
theorem Valid.exists_put_of_erase (h : p.Valid) (he : Program.erase id p = (.ok m, p'))
    (hm : m.isMarker) {spot : Spot} (hopen : spot.Open p') :
    ∃ new, (spot.put m p').1 = .ok new := by
  obtain ⟨before, after, hlist, -, -, h'⟩ := h.erase he
  have hknows : p'.knows m = true := by
    rw [knows_erase he]
    exact (h.admits id m (by simp [hlist])).known hm
  have hcheck : p'.check m = .ok () := by
    obtain ⟨e, hbound⟩ := Node.exists_alreadyBound hm
    rw [check_of_knows hknows hbound, if_neg]
    rw [place?_isSome_iff h' hm]
    exact h.not_mem_of_erase he hm
  obtain ⟨prev, hlink⟩ := h'.exists_link hopen
  rw [(hlink m).1, link_fst_of_check hcheck]
  have hslot : p'.nodes.free ≠ [] := by
    rw [free_erase he]
    exact List.cons_ne_nil _ _
  obtain ⟨⟨new, nodes⟩, hins⟩ := Arena.exists_insert ⟨m, prev, p'.follower prev⟩ hslot
  exact ⟨new, by rw [hins]; rfl⟩

/-! ## The registry -/

/-- What the program tells about its labels and sections is what the list of its nodes tells. -/
structure Registry (p : Program) : Prop where
  node?_iff : ∀ id node, p.node? id = some node ↔ (id, node) ∈ p.toList
  labelNode?_iff : ∀ l id, p.labelNode? l = some id ↔ p.node? id = some (.label l)
  sectionNode?_iff : ∀ s id, p.sectionNode? s = some id ↔ p.node? id = some (.sectionStart s)
  label_count_le : ∀ l, p.nodeList.count (.label l) ≤ 1
  section_count_le : ∀ s, p.nodeList.count (.sectionStart s) ≤ 1
  label_known : ∀ l, .label l ∈ p.nodeList → p.ownsLabel l
  section_known : ∀ s, .sectionStart s ∈ p.nodeList → (p.section? s).isSome
  isBound_iff : ∀ l, p.isBound l ↔ .label l ∈ p.nodeList
  section_bound_iff : ∀ s, (p.sectionNode? s).isSome ↔ .sectionStart s ∈ p.nodeList

/-- At most one node of the list is a given marker. -/
theorem Valid.count_le (h : p.Valid) (hm : m.isMarker) : p.nodeList.count m ≤ 1 := by
  by_contra hlt
  -- two nodes that are the same marker would have the same id
  have htwice : [m, m].Sublist p.nodeList :=
    List.replicate_sublist_iff.mpr (Nat.lt_of_not_le hlt)
  obtain ⟨items, hitems, hmap⟩ := List.sublist_map_iff.mp htwice
  obtain ⟨⟨id, n⟩, rest, rfl, rfl, hrest⟩ := List.map_eq_cons_iff.mp hmap.symm
  obtain ⟨⟨k, n'⟩, rest, rfl, hn, -⟩ := List.map_eq_cons_iff.mp hrest
  obtain rfl : n' = n := hn
  have hid := (h.place_iff n' id hm).mpr (hitems.subset (by simp))
  have hk := (h.place_iff n' k hm).mpr (hitems.subset (by simp))
  obtain rfl := Option.some.inj (hid.symm.trans hk)
  simpa using (hitems.map Prod.fst).nodup h.represents.nodup

/-- The tables of a valid program agree with its list. -/
theorem Valid.registry (h : p.Valid) : p.Registry where
  node?_iff _ _ := h.represents.node?_eq_some_iff
  labelNode?_iff l id := by
    rw [h.represents.node?_eq_some_iff]
    exact h.place_iff (.label l) id rfl
  sectionNode?_iff s id := by
    rw [h.represents.node?_eq_some_iff]
    exact h.place_iff (.sectionStart s) id rfl
  label_count_le _ := h.count_le rfl
  section_count_le _ := h.count_le rfl
  label_known l hl := by
    obtain ⟨⟨id, n⟩, hlisted, rfl⟩ := List.mem_map.mp hl
    rw [ownsLabel_eq]
    exact (h.admits id _ hlisted).known rfl
  section_known s hs := by
    obtain ⟨⟨id, n⟩, hlisted, rfl⟩ := List.mem_map.mp hs
    exact (h.admits id _ hlisted).known rfl
  isBound_iff l := place?_isSome_iff (m := .label l) h rfl
  section_bound_iff s := place?_isSome_iff (m := .sectionStart s) h rfl

/-- **Labels and sections are bound by the nodes of the list.** Whatever was done to a program, its
tables agree with its nodes. A label or section of the program that is put in anywhere is refused as
bound already exactly if a node of the list places it. That node can be taken out, and then the
label or section can be put in again anywhere. -/
theorem reachable_registry (h : Reachable p) :
    p.Registry ∧
      (∀ (l : Label) (spot : Spot), p.ownsLabel l → spot.Open p →
        ((spot.put (.label l) p).1 = .error (.alreadyBound "label" l.id) ↔
          .label l ∈ p.nodeList)) ∧
      (∀ (s : Section) (spot : Spot), (p.section? s).isSome → spot.Open p →
        ((spot.put (.sectionStart s) p).1 = .error (.alreadyBound "section" s.id) ↔
          .sectionStart s ∈ p.nodeList)) ∧
      ∀ id m, m.isMarker → (id, m) ∈ p.toList →
        ∃ p', erase id p = (.ok m, p') ∧
          ∀ spot : Spot, spot.Open p' → ∃ new, (spot.put m p').1 = .ok new := by
  have hv := h.valid
  refine ⟨hv.registry, ?_, ?_, ?_⟩
  · intro l spot hl hopen
    rw [ownsLabel_eq] at hl
    exact hv.put_eq_alreadyBound_iff (m := .label l) hl rfl hopen
  · intro s spot hs hopen
    exact hv.put_eq_alreadyBound_iff (m := .sectionStart s) hs rfl hopen
  · intro id m hm hlisted
    obtain ⟨p', he⟩ := hv.exists_erase hlisted
    exact ⟨p', he, fun spot hopen => hv.exists_put_of_erase he hm hopen⟩

/-- A label in front of an instruction. -/
def labelledNop : Program :=
  [Operation.createLabel, .emit (.label ⟨0⟩), .emit (.instruction ⟨.nop, []⟩)].foldl
    Operation.apply (empty .long64)

/-- The labelled instruction is put together by operations. -/
theorem reachable_labelledNop : Reachable labelledNop := by
  refine reachable_foldl .long64 fun op hop => ?_
  simp only [List.mem_cons, List.not_mem_nil, or_false] at hop
  rcases hop with rfl | rfl | rfl <;> trivial

/-- Behind the instruction the label is refused, and taken when it is gone from in front. -/
theorem registry_labelledNop :
    Reachable labelledNop ∧
      (insertAfter ⟨1, 0⟩ (.label ⟨0⟩) labelledNop).1 = .error (.alreadyBound "label" 0) ∧
      ∃ p', erase ⟨0, 0⟩ labelledNop = (.ok (.label ⟨0⟩), p') ∧
        ∃ new, (insertAfter ⟨1, 0⟩ (.label ⟨0⟩) p').1 = .ok new := by
  obtain ⟨-, hbound, -, hfree⟩ := reachable_registry reachable_labelledNop
  refine ⟨reachable_labelledNop, ?_, ?_⟩
  · refine (hbound ⟨0⟩ (.behind ⟨1, 0⟩) (by decide +kernel) ?_).mpr (by decide +kernel)
    show (⟨1, 0⟩ : NodeId) ∈ labelledNop.toList.map Prod.fst
    decide +kernel
  · obtain ⟨p', he, hput⟩ := hfree ⟨0, 0⟩ (.label ⟨0⟩) rfl (by decide +kernel)
    refine ⟨p', he, hput (.behind ⟨1, 0⟩) ?_⟩
    obtain rfl : (erase ⟨0, 0⟩ labelledNop).2 = p' := congrArg Prod.snd he
    show (⟨1, 0⟩ : NodeId) ∈ (erase ⟨0, 0⟩ labelledNop).2.toList.map Prod.fst
    decide +kernel

end Program

end X86Asm
