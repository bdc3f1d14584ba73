import X86Asm.Proofs.Outcome
import X86Asm.Proofs.Payload
import X86Asm.Proofs.Program.Sequence
import X86Asm.Proofs.Program.Tables

/-!
# Valid programs

`Program.Valid` collects what every edit relies on and keeps: the links spell out a list, a label
or section is bound exactly by the node of the list that places it, and every node of the list is
one that the program takes (`Program.Admits`).

There are two edits of the list, `Valid.link` and `Valid.erase`. Everything else that changes a
program is made of them or leaves the list alone.
-/

namespace X86Asm

/-- The bytes of a data node are a payload that can be made. -/
def Node.Made : Node → Prop
  | .data payload => payload.Made
  | _ => True

/-- The parameters of a node are within their domains. -/
def Node.InDomain : Node → Prop
  | .align alignment _ => Program.isPowerOfTwo alignment
  | .address _ size => size ∈ [2, 4, 8]
  | .data payload => payload.Made
  | _ => True

namespace Program

variable {p p' : Program} {before after : List (NodeId × Node)} {id : NodeId} {node : Node}

/-- The program can hold the node: the labels that it refers to and what it places are the
program's, and its parameters are within their domains. -/
structure Admits (p : Program) (node : Node) : Prop where
  references : ∀ l ∈ node.references, (p.label? l).isSome
  known : node.isMarker → p.knows node
  inDomain : node.InDomain

/-- What holds of a program between any two edits. -/
structure Valid (p : Program) : Prop where
  arena : p.nodes.Valid
  represents : p.Represents p.toList
  place_iff : ∀ m id, m.isMarker → (p.place? m = some id ↔ (id, m) ∈ p.toList)
  admits : ∀ id node, (id, node) ∈ p.toList → p.Admits node
  section_aligned : ∀ s e, p.section? s = some e → isPowerOfTwo e.alignment
  insertion_listed : ∀ id, p.insertion = .after id → id ∈ p.toList.map Prod.fst

/-- The empty program is valid. -/
theorem valid_empty (mode : Mode) : (empty mode).Valid := by
  have hlist : (empty mode).toList = [] := (represents_empty mode).toList_eq
  have hlabel : ∀ l, (empty mode).label? l = none := by
    intro l
    simp [label?, labelIndex?, empty]
  have hsection : ∀ s, (empty mode).section? s = none := by
    intro s
    simp [section?, sectionIndex?, empty]
  refine ⟨Arena.valid_empty, hlist ▸ represents_empty mode, ?_, ?_, ?_, ?_⟩
  · intro m id _
    cases m <;> simp [place?, labelNode?, sectionNode?, hlabel, hsection, hlist]
  · simp [hlist]
  · simp [hsection]
  · intro id h
    cases h

/-! ## Which nodes are taken -/

/-- A node that is taken refers to labels of the program only. -/
theorem checkReferences_eq_ok (h : p.checkReferences node = .ok ()) :
    ∀ l ∈ node.references, (p.label? l).isSome := by
  intro l hl
  have := forM_eq_ok_iff.mp h l hl
  rw [← ownsLabel_eq]
  split at this
  · assumption
  · cases this

/-- What can be placed is not placed yet. -/
theorem checkUnbound_eq_ok {what : String} {n : UInt32} {place : Option NodeId}
    (h : checkUnbound what n place = .ok ()) : place = none := by
  cases place with
  | none => rfl
  | some id => cases h

/-- What a node places is the program's and not placed yet, and its parameters are within their
domains. -/
theorem checkContent_eq_ok (hnode : node.Made) (h : p.checkContent node = .ok ()) :
    (node.isMarker → p.knows node) ∧ node.InDomain ∧ p.place? node = none := by
  cases node with
  | label l =>
    simp only [checkContent] at h
    cases hl : p.label? l with
    | none => simp [hl] at h
    | some e =>
      rw [hl] at h
      simp [knows, Node.InDomain, place?, labelNode?, hl, checkUnbound_eq_ok h]
  | sectionStart s =>
    simp only [checkContent] at h
    cases hs : p.section? s with
    | none => simp [hs] at h
    | some e =>
      rw [hs] at h
      simp [knows, Node.InDomain, place?, sectionNode?, hs, checkUnbound_eq_ok h]
  | data payload => exact ⟨by simp [Node.isMarker], hnode, rfl⟩
  | align alignment filler =>
    simp only [checkContent] at h
    split at h
    · rename_i hpow
      exact ⟨by simp [Node.isMarker], hpow, rfl⟩
    · cases h
  | address l size =>
    simp only [checkContent] at h
    split at h
    · rename_i hsize
      exact ⟨by simp [Node.isMarker], hsize, rfl⟩
    · cases h
  | instruction i => exact ⟨by simp [Node.isMarker], trivial, rfl⟩
  | difference l r width => exact ⟨by simp [Node.isMarker], trivial, rfl⟩

/-- A node that passes the check can be held, and what it places has no place yet. -/
theorem check_eq_ok (hnode : node.Made) (h : p.check node = .ok ()) :
    p.Admits node ∧ p.place? node = none := by
  unfold check at h
  obtain ⟨_, href, hcontent⟩ := bind_eq_ok_iff.mp h
  obtain ⟨hknown, hdomain, hfree⟩ := checkContent_eq_ok hnode hcontent
  exact ⟨⟨checkReferences_eq_ok href, hknown, hdomain⟩, hfree⟩

/-- What a program can hold depends only on which labels and sections it has. -/
theorem Admits.mono (h : p.Admits node) (hknows : ∀ m, p.knows m → p'.knows m) :
    p'.Admits node where
  references l hl := hknows (.label l) (h.references l hl)
  known hm := hknows node (h.known hm)
  inDomain := h.inDomain

/-! ## Changes beside the list -/

/-- A change that leaves the nodes alone and what is bound keeps a program valid. -/
theorem Valid.of_same_list (h : p.Valid) (hnodes : p'.nodes = p.nodes) (hhead : p'.head = p.head)
    (htail : p'.tail = p.tail) (hplace : ∀ m, p'.place? m = p.place? m)
    (hknows : ∀ m, p.knows m → p'.knows m)
    (halign : ∀ s e, p'.section? s = some e → isPowerOfTwo e.alignment)
    (hins : ∀ id, p'.insertion = .after id → id ∈ p.toList.map Prod.fst) : p'.Valid := by
  have hlist : p'.toList = p.toList := by
    unfold toList
    rw [hnodes, hhead]
  obtain ⟨hnodup, hhead', htail', hentry, hlisted⟩ := h.represents
  refine ⟨hnodes ▸ h.arena, ?_, ?_, ?_, halign, hlist ▸ hins⟩
  · rw [hlist]
    exact ⟨hnodup, hhead ▸ hhead', htail ▸ htail', hnodes ▸ hentry, hnodes ▸ hlisted⟩
  · intro m id hm
    rw [hplace, hlist]
    exact h.place_iff m id hm
  · intro id node hm
    rw [hlist] at hm
    exact (h.admits id node hm).mono hknows

/-- The insertion point may stand behind any node of the list. -/
theorem Valid.setInsertion (h : p.Valid) {point : InsertionPoint}
    (hp : ∀ id, point = .after id → id ∈ p.toList.map Prod.fst) :
    ({ p with insertion := point } : Program).Valid :=
  h.of_same_list rfl rfl rfl (fun _ => rfl) (fun _ => id) h.section_aligned hp

/-- A program stays valid with other names. -/
theorem Valid.setNames (h : p.Valid) (names : NameTable) : ({ p with names } : Program).Valid :=
  h.of_same_list rfl rfl rfl (fun _ => rfl) (fun _ => id) h.section_aligned h.insertion_listed

/-- A label whose number is new is not bound. -/
theorem Valid.pushLabel (h : p.Valid) (name : Option NameId) : (pushLabel name p).2.Valid := by
  unfold Program.pushLabel
  split
  · exact h
  · have hpush : ∀ l, ({ p with labels := p.labels.push { name } } : Program).label? l =
        if p.firstLabel ≤ l.id ∧ l.id.toNat - p.firstLabel.toNat = p.labels.size then
          some { name }
        else p.label? l := fun l => lookup?_push ..
    refine h.of_same_list rfl rfl rfl ?_ ?_ h.section_aligned h.insertion_listed
    · intro m
      cases m with
      | label l =>
        simp only [place?, labelNode?]
        rw [hpush]
        split
        · rename_i hl
          rw [label?_eq, lookup?_eq_none_of_next hl.2]
          rfl
        · rfl
      | _ => rfl
    · intro m hm
      cases m with
      | label l =>
        simp only [knows] at hm ⊢
        rw [hpush]
        split
        · rfl
        · exact hm
      | _ => exact hm

/-- A new label with a name leaves the program valid. -/
theorem Valid.createNamedLabel (h : p.Valid) (name : String) :
    (createNamedLabel name p).2.Valid :=
  (h.setNames _).pushLabel _

/-- A section whose number is new is not bound, and its alignment has been looked at. -/
theorem Valid.createSection (h : p.Valid) (name : String) (flags : SectionFlags)
    (alignment : UInt32) : (createSection name flags alignment p).2.Valid := by
  unfold Program.createSection
  split
  · rename_i hpow
    split
    · exact h
    · generalize p.names.intern name = interned
      obtain ⟨name, names⟩ := interned
      -- the new section has the next number, and the others are found as before
      have hpush : ∀ s, ({ p with sections := p.sections.push { name, flags, alignment }, names } :
          Program).section? s =
          if p.firstSection ≤ s.id ∧ s.id.toNat - p.firstSection.toNat = p.sections.size then
            some { name, flags, alignment }
          else p.section? s := fun s => lookup?_push ..
      refine h.of_same_list rfl rfl rfl ?_ ?_ ?_ h.insertion_listed
      · intro m
        cases m with
        | sectionStart s =>
          simp only [place?, sectionNode?]
          rw [hpush]
          split
          · rename_i hs
            rw [section?_eq, lookup?_eq_none_of_next hs.2]
            rfl
          · rfl
        | _ => rfl
      · intro m hm
        cases m with
        | sectionStart s =>
          simp only [knows] at hm ⊢
          rw [hpush]
          split
          · rfl
          · exact hm
        | _ => exact hm
      · intro s e he
        rw [hpush] at he
        split at he
        · cases he
          exact hpow
        · exact h.section_aligned s e he
  · exact h

/-! ## Putting a node in and taking one out -/

/-- Relinking keeps the free list of the arena in step with its slots. -/
theorem valid_nodes_relink (h : p.nodes.Valid) (left right onward back : Option NodeId)
    (node : Node) (place : Option NodeId) :
    (((p.setNext left onward).setPrev right back).setPlace node place).nodes.Valid := by
  rw [setPlace_nodes]
  have hnext : (p.setNext left onward).nodes.Valid := by
    cases left with
    | none => exact h
    | some id => exact h.modify _ _
  cases right with
  | none => exact hnext
  | some id => exact hnext.modify _ _

/-- Relinking changes the alignment of no section. -/
theorem section?_relink_alignment (left right onward back : Option NodeId) (place : Option NodeId)
    {s : Section} {e : SectionEntry}
    (he : (((p.setNext left onward).setPrev right back).setPlace node place).section? s = some e) :
    ∃ e', p.section? s = some e' ∧ e'.alignment = e.alignment := by
  rw [section?_setPlace, section?_setPrev, section?_setNext] at he
  split at he
  · obtain ⟨e', he', rfl⟩ := Option.map_eq_some_iff.mp he
    exact ⟨e', he', rfl⟩
  · exact ⟨e, he, rfl⟩

/-- A node that is linked has passed the check, and its neighbours are set to it. -/
theorem link_eq_ok {prev : Option NodeId} (h : link prev node p = (.ok id, p')) :
    p.check node = .ok () ∧ ∃ nodes,
      p.nodes.insert ⟨node, prev, p.follower prev⟩ = .ok (id, nodes) ∧
      p' = (({ p with nodes }.setNext prev (some id)).setPrev (p.follower prev)
        (some id)).setPlace node (some id) := by
  unfold link at h
  split at h
  · cases h
  · rename_i hcheck
    refine ⟨hcheck, ?_⟩
    simp only at h
    split at h
    · cases h
    · rename_i id' nodes hins
      obtain ⟨hid, rfl⟩ := Prod.mk.inj h
      cases hid
      exact ⟨nodes, hins, rfl⟩

/-- A node that is not linked leaves the program as it was. -/
theorem link_eq_error {prev : Option NodeId} {e : Error} (h : link prev node p = (.error e, p')) :
    p' = p := by
  unfold link at h
  split at h
  · cases h
    rfl
  · simp only at h
    split at h
    · cases h
      rfl
    · cases h

/-- Linking a node leaves the insertion point. -/
@[simp] theorem link_insertion (prev : Option NodeId) (node : Node) (p : Program) :
    (link prev node p).2.insertion = p.insertion := by
  rcases hl : link prev node p with ⟨r, p'⟩
  cases r with
  | error e => rw [link_eq_error hl]
  | ok id =>
    obtain ⟨-, nodes, -, rfl⟩ := link_eq_ok hl
    simp

/-- Linking a node leaves the mode. -/
@[simp] theorem link_mode (prev : Option NodeId) (node : Node) (p : Program) :
    (link prev node p).2.mode = p.mode := by
  rcases hl : link prev node p with ⟨r, p'⟩
  cases r with
  | error e => rw [link_eq_error hl]
  | ok id =>
    obtain ⟨-, nodes, -, rfl⟩ := link_eq_ok hl
    simp

/-- A node that is put between neighbours stands between them in the list. -/
theorem Valid.link (h : p.Valid) (hlist : p.toList = before ++ after) (hnode : node.Made)
    (hl : link (lastId before) node p = (.ok id, p')) :
    p'.toList = before ++ (id, node) :: after ∧ p'.Valid := by
  obtain ⟨hcheck, nodes, hins, hp'⟩ := link_eq_ok hl
  obtain ⟨hadmits, hfree⟩ := check_eq_ok hnode hcheck
  have hrep := h.represents
  rw [hlist] at hrep
  rw [hrep.follower_eq] at hins hp'
  obtain ⟨hfresh, hget⟩ := Arena.insert_spec h.arena hins
  have hrep' := hrep.insert hfresh hget
  rw [← hp'] at hrep'
  have hlist' := hrep'.toList_eq
  have hmem : ∀ x, x ∈ p'.toList ↔ x = (id, node) ∨ x ∈ p.toList := by
    intro x
    rw [hlist, hlist']
    simp only [List.mem_append, List.mem_cons]
    exact or_left_comm
  have hknows : ∀ m, p'.knows m = p.knows m := by
    intro m
    rw [hp', knows_setPlace, knows_relink]
    cases m <;> rfl
  refine ⟨hlist', ?_, hlist'.symm ▸ hrep', ?_, ?_, ?_, ?_⟩
  · rw [hp']
    exact valid_nodes_relink (p := { p with nodes }) (h.arena.insert hins) ..
  · -- the node is the place of what it places, and nothing else changes
    intro m k hm
    have hplace : p'.place? m = if node = m ∧ p.knows m then some id else p.place? m := by
      rw [hp', place?_setPlace, place?_relink, knows_relink]
      cases m <;> rfl
    rw [hplace, hmem, ← h.place_iff m k hm]
    by_cases hn : node = m
    · -- what is placed had no place before
      subst hn
      rw [if_pos ⟨rfl, hadmits.known hm⟩, hfree]
      simp [eq_comm]
    · rw [if_neg fun hc => hn hc.1]
      simp [Ne.symm hn]
  · intro k n hk
    have : p.Admits n := by
      rcases (hmem _).mp hk with hk | hk
      · exact (Prod.mk.inj hk).2 ▸ hadmits
      · exact h.admits k n hk
    -- what is known stays known
    exact this.mono fun m hm => (hknows m).symm ▸ hm
  · intro s e he
    rw [hp'] at he
    obtain ⟨e', he', halign⟩ := section?_relink_alignment _ _ _ _ _ he
    exact halign ▸ h.section_aligned s e' he'
  · intro k hk
    rw [hp'] at hk
    simp only [setPlace_insertion, setPrev_insertion, setNext_insertion] at hk
    obtain ⟨x, hx, rfl⟩ := List.mem_map.mp (h.insertion_listed k hk)
    exact List.mem_map_of_mem ((hmem x).mpr (.inr hx))

/-- A node that is taken out had an entry, and its neighbours are set to each other. -/
theorem erase_eq_ok (he : erase id p = (.ok node, p')) :
    ∃ entry nodes, p.nodes.erase id = some (entry, nodes) ∧ entry.node = node ∧
      p' = ((({ p with nodes, insertion := p.insertion.without id entry.prev }.setNext entry.prev
        entry.next).setPrev entry.next entry.prev).setPlace node none) := by
  unfold erase at he
  split at he
  · cases he
  · rename_i entry nodes herase
    obtain ⟨hnode, rfl⟩ := Prod.mk.inj he
    cases hnode
    exact ⟨entry, nodes, herase, rfl, rfl⟩

/-- A node that is not taken out leaves the program as it was. -/
theorem erase_eq_error {e : Error} (he : erase id p = (.error e, p')) : p' = p := by
  unfold erase at he
  split at he
  · cases he
    rfl
  · cases he

/-- The insertion point leaves a node that goes for the place where the node was. -/
theorem without_eq_after {point : InsertionPoint} {prev : Option NodeId} {k : NodeId}
    (h : point.without id prev = .after k) : prev = some k ∨ (point = .after k ∧ k ≠ id) := by
  unfold InsertionPoint.without at h
  split at h
  · cases prev with
    | none => cases h
    | some j =>
      cases h
      exact .inl rfl
  · rename_i hne
    exact .inr ⟨h, fun hc => hne (hc ▸ h)⟩

/-- Taking a node out leaves the others where they are, and what it placed is unbound. -/
theorem Valid.erase (h : p.Valid) (he : erase id p = (.ok node, p')) :
    ∃ before after, p.toList = before ++ (id, node) :: after ∧ p'.toList = before ++ after ∧
      p'.insertion = p.insertion.without id (lastId before) ∧ p'.Valid := by
  obtain ⟨entry, nodes, herase, rfl, hp'⟩ := erase_eq_ok he
  obtain ⟨hentry, -⟩ := Arena.erase_cases herase
  obtain ⟨before, after, hlist, hprev, hnext⟩ := h.represents.split hentry
  rw [hprev, hnext] at hp'
  have hrep := h.represents
  rw [hlist] at hrep
  have hrep' := hrep.erase (Arena.get?_erase herase) (p.insertion.without id (lastId before)) none
  rw [← hp'] at hrep'
  have hlist' := hrep'.toList_eq
  have hmem : ∀ x, x ∈ p.toList ↔ x = (id, entry.node) ∨ x ∈ p'.toList := by
    intro x
    rw [hlist, hlist']
    simp only [List.mem_append, List.mem_cons]
    exact or_left_comm
  have hgone : ∀ n, (id, n) ∉ p'.toList := by
    intro n hm
    have hnodup := (List.perm_middle.map Prod.fst).nodup_iff.mp hrep.nodup
    rw [hlist'] at hm
    exact (List.nodup_cons.mp hnodup).1 (List.mem_map.mpr ⟨(id, n), hm, rfl⟩)
  have hknows : ∀ m, p'.knows m = p.knows m := by
    intro m
    rw [hp', knows_setPlace, knows_relink]
    cases m <;> rfl
  have hpoint : p'.insertion = p.insertion.without id (lastId before) := by
    rw [hp', setPlace_insertion, setPrev_insertion, setNext_insertion]
  refine ⟨before, after, hlist, hlist', hpoint, ?_, hlist'.symm ▸ hrep', ?_, ?_, ?_, ?_⟩
  · rw [hp']
    exact valid_nodes_relink (p := { p with nodes, insertion := _ }) (h.arena.erase herase) ..
  · intro m k hm
    have hplace : p'.place? m = if entry.node = m ∧ p.knows m then none else p.place? m := by
      rw [hp', place?_setPlace, place?_relink, knows_relink]
      cases m <;> rfl
    have hold := h.place_iff m k hm
    rw [hmem] at hold
    rw [hplace]
    by_cases hn : entry.node = m
    · -- no other node places what the node placed
      subst hn
      have hplaced := (h.place_iff _ id hm).mpr ((hmem _).mpr (.inl rfl))
      rw [if_pos ⟨rfl, (h.admits id _ ((hmem _).mpr (.inl rfl))).known hm⟩]
      constructor
      · intro hc
        cases hc
      · intro hc
        rw [hold.mpr (.inr hc)] at hplaced
        cases hplaced
        exact absurd hc (hgone _)
    · rw [if_neg fun hc => hn hc.1]
      rwa [or_iff_right fun hc => hn (Prod.mk.inj hc).2.symm] at hold
  · intro k n hk
    exact (h.admits k n ((hmem _).mpr (.inr hk))).mono fun m hm => (hknows m).symm ▸ hm
  · intro s e he
    rw [hp'] at he
    obtain ⟨e', he', halign⟩ := section?_relink_alignment _ _ _ _ _ he
    exact halign ▸ h.section_aligned s e' he'
  · -- the insertion point has moved off the node
    intro k hk
    rw [hpoint] at hk
    rcases without_eq_after hk with hk | ⟨hk, hne⟩
    · rw [hlist']
      simp [mem_of_lastId hk]
    · obtain ⟨x, hx, rfl⟩ := List.mem_map.mp (h.insertion_listed k hk)
      rcases (hmem x).mp hx with rfl | hx
      · exact absurd rfl hne
      · exact List.mem_map_of_mem hx

/-! ## The nodes of a valid program -/

/-- Alignments are positive. -/
theorem isPowerOfTwo_pos {n : UInt32} (h : isPowerOfTwo n) : 0 < n.toNat := by
  rw [isPowerOfTwo, decide_eq_true_eq] at h
  exact h ▸ Nat.pow_pos (by decide)

/-- The program can hold each node of the list. -/
theorem Valid.admits_getElem? (h : p.Valid) {i : Nat} (hi : p.nodeList[i]? = some node) :
    p.Admits node := by
  rw [nodeList, List.getElem?_map] at hi
  obtain ⟨⟨id, n⟩, hx, rfl⟩ := Option.map_eq_some_iff.mp hi
  exact h.admits id n (List.mem_of_getElem? hx)

/-- No two nodes of the list place the same label. -/
theorem Valid.label_unique (h : p.Valid) {i j : Nat} {l : Label}
    (hi : p.nodeList[i]? = some (.label l)) (hj : p.nodeList[j]? = some (.label l)) : i = j := by
  rw [nodeList, List.getElem?_map] at hi hj
  obtain ⟨⟨id, n⟩, hx, rfl⟩ := Option.map_eq_some_iff.mp hi
  obtain ⟨⟨k, n⟩, hy, rfl⟩ := Option.map_eq_some_iff.mp hj
  have hid := (h.place_iff _ id rfl).mpr (List.mem_of_getElem? hx)
  have hk := (h.place_iff _ k rfl).mpr (List.mem_of_getElem? hy)
  obtain rfl := Option.some.inj (hid.symm.trans hk)
  -- one id stands in one place only
  have hi : (p.toList.map Prod.fst)[i]? = some id := by rw [List.getElem?_map, hx]; rfl
  have hj : (p.toList.map Prod.fst)[j]? = some id := by rw [List.getElem?_map, hy]; rfl
  obtain ⟨hlt, -⟩ := List.getElem?_eq_some_iff.mp hi
  exact (List.getElem?_inj hlt h.represents.nodup).mp (hi.trans hj.symm)

/-- A label that is bound is placed by a node of the list. -/
theorem Valid.exists_label (h : p.Valid) {l : Label} (hbound : p.isBound l = true) :
    ∃ j : Nat, p.nodeList[j]? = some (.label l) := by
  obtain ⟨id, hid⟩ := Option.isSome_iff_exists.mp hbound
  have hlisted := (h.place_iff (.label l) id rfl).mp hid
  exact List.mem_iff_getElem?.mp (List.mem_map.mpr ⟨_, hlisted, rfl⟩)

/-- A section that a node starts has an alignment. -/
theorem Valid.sectionAlignment (h : p.Valid) {i : Nat} {s : Section}
    (hi : p.nodeList[i]? = some (.sectionStart s)) :
    ∃ alignment, p.sectionAlignment? s = some alignment ∧ isPowerOfTwo alignment := by
  have hknown := (h.admits_getElem? hi).known rfl
  obtain ⟨e, he⟩ := Option.isSome_iff_exists.mp hknown
  exact ⟨e.alignment, by rw [sectionAlignment?, he]; rfl, h.section_aligned s e he⟩

end Program

end X86Asm
