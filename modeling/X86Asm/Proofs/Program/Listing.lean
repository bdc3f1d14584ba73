import X86Asm.Proofs.Program.Reachable

/-!
# Programs as sequences with an insertion point

Whatever is done to a program, it shows a list of nodes and an insertion point (`Program.Shows`),
and its operations do to the two what is said of them (`Listing.Step`, `Program.exists_listings`).
The list is the one that the links spell out. The insertion point is the program's own.
-/

namespace X86Asm.Program

variable {p p' : Program} {before after before' after' : List (NodeId × Node)}
  {id k position : NodeId} {node : Node} {op : Operation} {mode : Mode}

/-! ## What operations return -/

/-- What a call of an operation returns. -/
inductive Operation.Answer where
  /-- Nothing. -/
  | done
  /-- A label that was created. -/
  | newLabel (l : Label)
  /-- A section that was created. -/
  | newSection (s : Section)
  /-- The id of a node that was put in. -/
  | added (id : NodeId)
  /-- A node that was taken out. -/
  | erased (node : Node)
deriving DecidableEq

namespace Operation

/-- What the call returns, or why it is refused. -/
def answer (p : Program) : Operation → Except Error Answer
  | createLabel => .newLabel <$> (Program.createLabel p).1
  | createNamedLabel name => .newLabel <$> (Program.createNamedLabel name p).1
  | createSection name flags alignment =>
    .newSection <$> (Program.createSection name flags alignment p).1
  | emit node => .added <$> (Program.emit node p).1
  | emitAddress l => .added <$> (Program.emitAddress l p).1
  | insertAfter position node => .added <$> (Program.insertAfter position node p).1
  | insertBefore position node => .added <$> (Program.insertBefore position node p).1
  | setCursor position => (fun _ => .done) <$> (Program.setCursor position p).1
  | erase id => .erased <$> (Program.erase id p).1
  | clear => .ok .done

/-- The node that the call puts in at the insertion point. -/
def emitted? (mode : Mode) : Operation → Option Node
  | emit node => some node
  | emitAddress l => some (.address l (UInt8.ofNat mode.pointerBytes))
  | _ => none

/-- The node that the call names. -/
def target? : Operation → Option NodeId
  | insertAfter position _ | insertBefore position _ => some position
  | setCursor position => position
  | erase id => some id
  | _ => none

/-- Whether the call creates a label or section. -/
def creates : Operation → Bool
  | createLabel | createNamedLabel _ | createSection .. => true
  | _ => false

/-- Whether the call asks for something that there may be no room for, or for a node that the
program may not take. -/
def adds : Operation → Bool
  | setCursor _ | erase _ | clear => false
  | _ => true

/-- An operation that creates a label or section names no node and emits none. -/
theorem adds_of_creates (h : op.creates = true) (mode : Mode) :
    op.adds = true ∧ op.target? = none ∧ op.emitted? mode = none := by
  cases op with
  | createLabel => exact ⟨rfl, rfl, rfl⟩
  | createNamedLabel name => exact ⟨rfl, rfl, rfl⟩
  | createSection name flags alignment => exact ⟨rfl, rfl, rfl⟩
  | _ => cases h

end Operation

/-! ## Sequences with an insertion point -/

/-- Nodes with different ids, in order, and where the next one goes. -/
@[ext] structure Listing where
  /-- The nodes. -/
  items : List (NodeId × Node)
  /-- The insertion point. -/
  point : InsertionPoint
  /-- The ids are different. -/
  nodup : (items.map Prod.fst).Nodup
  /-- The insertion point is beside a node of the list. -/
  listed : ∀ id, point = .after id → id ∈ items.map Prod.fst

namespace Listing

/-- No nodes. -/
def empty : Listing := ⟨[], .tail, List.nodup_nil, nofun⟩

/-- The insertion point stands between two parts of the list. -/
def Cut (s : Listing) (before after : List (NodeId × Node)) : Prop :=
  s.items = before ++ after ∧
    match s.point with
    | .tail => after = []
    | .front => before = []
    | .after id => lastId before = some id

/-- What a call does to a list with an insertion point, and what it returns. -/
inductive Step (mode : Mode) (s s' : Listing) : Operation → Except Error Operation.Answer → Prop
  /-- A node goes in at the insertion point, which moves behind it or stays at the tail. -/
  | emit {op : Operation} {id : NodeId} {node : Node} {before after : List (NodeId × Node)} :
      op.emitted? mode = some node → s.Cut before after →
      s'.items = before ++ (id, node) :: after →
      s'.point = (if s.point = .tail then .tail else .after id) →
      Step mode s s' op (.ok (.added id))
  /-- A node goes in directly behind a node. -/
  | insertAfter {position id : NodeId} {n node : Node} {before after : List (NodeId × Node)} :
      s.items = before ++ (position, n) :: after →
      s'.items = before ++ (position, n) :: (id, node) :: after → s'.point = s.point →
      Step mode s s' (.insertAfter position node) (.ok (.added id))
  /-- A node goes in directly in front of a node. -/
  | insertBefore {position id : NodeId} {n node : Node} {before after : List (NodeId × Node)} :
      s.items = before ++ (position, n) :: after →
      s'.items = before ++ (id, node) :: (position, n) :: after → s'.point = s.point →
      Step mode s s' (.insertBefore position node) (.ok (.added id))
  /-- A node goes. An insertion point behind it moves to where it was. -/
  | erase {id : NodeId} {node : Node} {before after : List (NodeId × Node)} :
      s.items = before ++ (id, node) :: after → s'.items = before ++ after →
      s'.point = (if s.point = .after id then (lastId before).elim .front .after else s.point) →
      Step mode s s' (.erase id) (.ok (.erased node))
  /-- The insertion point moves behind a node, or to the tail. -/
  | setCursor {position : Option NodeId} :
      (∀ id, position = some id → id ∈ s.items.map Prod.fst) → s'.items = s.items →
      s'.point = position.elim .tail .after → Step mode s s' (.setCursor position) (.ok .done)
  /-- All nodes go. -/
  | clear : s'.items = [] → s'.point = .tail → Step mode s s' .clear (.ok .done)
  /-- A label or section is none of the nodes. -/
  | create {op : Operation} {answer : Operation.Answer} :
      op.creates → s' = s → Step mode s s' op (.ok answer)
  /-- A call that names a node that is not there does nothing. -/
  | unlisted {op : Operation} {id : NodeId} :
      op.target? = some id → id ∉ s.items.map Prod.fst → s' = s →
      Step mode s s' op (.error .invalidNode)
  /-- A call that is refused does nothing. -/
  | refused {op : Operation} {e : Error} :
      op.adds → (∀ id, op.target? = some id → id ∈ s.items.map Prod.fst) → s' = s →
      Step mode s s' op (.error e)

end Listing

/-! ## What a program shows -/

/-- Everything that can be asked about the order of the nodes is answered by the list. -/
structure Shows (p : Program) (s : Listing) : Prop where
  /-- Following the links from the first node leads through the list, and there it ends. -/
  walk_eq : ∀ fuel, s.items.length ≤ fuel → walk p.nodes fuel p.head = s.items
  toList_eq : p.toList = s.items
  size_eq : p.size = s.items.length
  head_eq : p.head = firstId s.items
  tail_eq : p.tail = lastId s.items
  neighbours : ∀ before id node after, s.items = before ++ (id, node) :: after →
    p.node? id = some node ∧ p.next? id = firstId after ∧ p.prev? id = lastId before
  unlisted : ∀ id, id ∉ s.items.map Prod.fst →
    p.node? id = none ∧ p.next? id = none ∧ p.prev? id = none
  next_iff_prev : ∀ id k, p.next? id = some k ↔ p.prev? k = some id
  insertion_eq : p.insertion = s.point
  cursor_listed : ∀ id, p.cursor? = some id → id ∈ s.items.map Prod.fst

/-- The list and the insertion point of a program. -/
def Valid.listing (h : p.Valid) : Listing :=
  ⟨p.toList, p.insertion, h.represents.nodup, h.insertion_listed⟩

/-- The listing is read off the list and the insertion point alone. -/
theorem Valid.listing_eq (h : p.Valid) (h' : p'.Valid) (hlist : p'.toList = p.toList)
    (hpoint : p'.insertion = p.insertion) : h'.listing = h.listing :=
  Listing.ext hlist hpoint

/-- A valid program shows its listing. -/
theorem Valid.shows (h : p.Valid) : p.Shows h.listing where
  walk_eq fuel hfuel := by
    have hfront : p.Represents ([] ++ p.toList) := h.represents
    rw [h.represents.head_eq]
    exact hfront.walk_eq hfuel
  toList_eq := rfl
  size_eq :=
    (h.arena.size_eq h.represents.nodup fun _ =>
      h.contains_iff.symm.trans Arena.contains_eq_true_iff).trans (List.length_map ..)
  head_eq := h.represents.head_eq
  tail_eq := h.represents.tail_eq
  neighbours _ _ _ _ hitems := h.represents.neighbours hitems
  unlisted id hid := by simp [node?, next?, prev?, h.represents.get?_eq_none hid]
  next_iff_prev _ _ := h.represents.next_iff_prev
  insertion_eq := rfl
  cursor_listed id hid := by
    refine h.insertion_listed id ?_
    unfold cursor? at hid
    split at hid
    · cases hid
      assumption
    · cases hid
    · cases hid

/-! ## What operations do -/

/-- A node that is refused behind another leaves the program as it was. -/
theorem insertAfter_eq_error {e : Error} (h : insertAfter position node p = (.error e, p')) :
    p' = p := by
  unfold insertAfter at h
  split at h
  · exact link_eq_error h
  · exact (Prod.mk.inj h).2.symm

/-- A refused call of an operation that puts a node in leaves the program alone. -/
theorem emit_eq_error {e : Error} (h : emit node p = (.error e, p')) : p' = p := by
  have hbehind {outcome : Except Error NodeId × Program} {p' : Program}
      (h : moveBehind outcome = (.error e, p')) : outcome = (.error e, p') := by
    rcases outcome with ⟨_ | id, q⟩
    · exact h
    · cases h
  unfold emit at h
  split at h
  · exact link_eq_error h
  · exact link_eq_error (hbehind h)
  · exact insertAfter_eq_error (hbehind h)

/-- The insertion point moves behind the node that was put in. -/
theorem moveBehind_eq_ok {outcome : Except Error NodeId × Program}
    (h : moveBehind outcome = (.ok id, p')) :
    ∃ q, outcome = (.ok id, q) ∧ p' = { q with insertion := .after id } := by
  rcases outcome with ⟨_ | k, q⟩
  · cases h
  · cases h
    exact ⟨q, rfl, rfl⟩

/-- A node that is emitted goes in at the insertion point. -/
theorem Valid.emit_eq_ok (h : p.Valid) (hnode : node.Made)
    (he : Program.emit node p = (.ok id, p')) :
    ∃ before after, h.listing.Cut before after ∧ p'.toList = before ++ (id, node) :: after ∧
      p'.insertion = if p.insertion = .tail then .tail else .after id := by
  unfold Program.emit at he
  split at he
  · -- at the tail, where the insertion point stays
    rename_i hpoint
    have hlist : p.toList = p.toList ++ [] := (List.append_nil _).symm
    rw [h.represents.tail_eq] at he
    obtain ⟨hlist', -⟩ := h.link hlist hnode he
    refine ⟨p.toList, [], ⟨hlist, ?_⟩, hlist', ?_⟩
    · simp only [Valid.listing, hpoint]
    · have hkept := link_insertion (lastId p.toList) node p
      rw [he] at hkept
      rw [hkept, hpoint, if_pos rfl]
  · -- in front of all nodes
    rename_i hpoint
    obtain ⟨q, hq, rfl⟩ := moveBehind_eq_ok he
    have hfront : p.toList = [] ++ p.toList := rfl
    obtain ⟨hlist', -⟩ := h.link hfront hnode hq
    refine ⟨[], p.toList, ⟨rfl, ?_⟩, hlist', ?_⟩
    · simp only [Valid.listing, hpoint]
    · rw [hpoint, if_neg nofun]
  · -- behind a node of the program
    rename_i position hpoint
    obtain ⟨q, hq, rfl⟩ := moveBehind_eq_ok he
    unfold Program.insertAfter at hq
    split at hq
    · rename_i hc
      obtain ⟨before, after, hlist, hlast⟩ := h.split_after hc
      obtain ⟨hlist', -⟩ := h.link hlist hnode (hlast ▸ hq)
      refine ⟨before, after, ⟨hlist, ?_⟩, hlist', ?_⟩
      · simp only [Valid.listing, hpoint, hlast]
      · rw [hpoint, if_neg nofun]
    · cases hq

/-- Creating labels and sections touches neither the nodes nor the insertion point. -/
theorem Operation.apply_of_creates (hop : op.creates = true) :
    (op.apply p).toList = p.toList ∧ (op.apply p).insertion = p.insertion := by
  have hpush (name : Option NameId) (p : Program) :
      (pushLabel name p).2.toList = p.toList ∧
        (pushLabel name p).2.insertion = p.insertion := by
    unfold pushLabel
    split <;> exact ⟨rfl, rfl⟩
  cases op with
  | createLabel => exact hpush none p
  | createNamedLabel name => exact hpush _ { p with names := (p.names.intern name).2 }
  | createSection name flags alignment =>
    show (Program.createSection name flags alignment p).2.toList = p.toList ∧
      (Program.createSection name flags alignment p).2.insertion = p.insertion
    unfold Program.createSection
    split
    · split <;> exact ⟨rfl, rfl⟩
    · exact ⟨rfl, rfl⟩
  | _ => cases hop

/-! ### The mode -/

/-- Moving the insertion point behind a node leaves the mode. -/
@[simp] theorem moveBehind_mode (outcome : Except Error NodeId × Program) :
    (moveBehind outcome).2.mode = outcome.2.mode := by
  rcases outcome with ⟨_ | id, q⟩ <;> rfl

/-- Putting a node in behind another leaves the mode. -/
@[simp] theorem insertAfter_mode (position : NodeId) (node : Node) (p : Program) :
    (insertAfter position node p).2.mode = p.mode := by
  unfold insertAfter
  split <;> simp

/-- Putting a node in at the insertion point leaves the mode. -/
theorem emit_mode (node : Node) (p : Program) : (emit node p).2.mode = p.mode := by
  unfold emit
  split <;> simp

/-- A program is for one mode only. -/
theorem Operation.mode_apply (op : Operation) (p : Program) : (op.apply p).mode = p.mode := by
  have hpush (name : Option NameId) (p : Program) : (pushLabel name p).2.mode = p.mode := by
    unfold pushLabel
    split <;> rfl
  cases op with
  | createLabel => exact hpush none p
  | createNamedLabel name => exact hpush _ { p with names := (p.names.intern name).2 }
  | createSection name flags alignment =>
    show (Program.createSection name flags alignment p).2.mode = p.mode
    unfold Program.createSection
    split <;> try split
    all_goals rfl
  | emit node => exact emit_mode node p
  | emitAddress l => exact emit_mode _ p
  | insertAfter position node => exact insertAfter_mode position node p
  | insertBefore position node =>
    show (Program.insertBefore position node p).2.mode = p.mode
    unfold Program.insertBefore
    split <;> simp
  | setCursor position =>
    show (Program.setCursor position p).2.mode = p.mode
    unfold Program.setCursor
    split <;> try split
    all_goals rfl
  | erase id =>
    show (Program.erase id p).2.mode = p.mode
    unfold Program.erase
    split <;> simp
  | clear => rfl

/-! ## Each step does what is said -/

section

open Listing

variable (h : p.Valid) (h' : p'.Valid)

include h

/-- Emitting puts the node in at the insertion point of the listing, or is refused. -/
theorem step_emit {r : Except Error NodeId} (hnode : node.Made)
    (hop : op.emitted? p.mode = some node) (hadds : op.adds = true) (htarget : op.target? = none)
    (he : emit node p = (r, p')) : Step p.mode h.listing h'.listing op (.added <$> r) := by
  cases r with
  | error e =>
    obtain rfl := emit_eq_error he
    exact .refused hadds (fun id hid => by rw [htarget] at hid; cases hid) rfl
  | ok id =>
    obtain ⟨before, after, hcut, hlist, hpoint⟩ := h.emit_eq_ok hnode he
    exact .emit hop hcut hlist hpoint

/-- A node that is put in between two parts of the list, unless it is refused. -/
theorem link_cases {r : Except Error NodeId} (hnode : node.Made)
    (hlist : p.toList = before ++ after) (hl : link (lastId before) node p = (r, p')) :
    (∃ e, r = .error e ∧ p' = p) ∨
      ∃ id, r = .ok id ∧ p'.toList = before ++ (id, node) :: after ∧
        p'.insertion = p.insertion := by
  cases r with
  | error e => exact .inl ⟨e, rfl, link_eq_error hl⟩
  | ok id =>
    obtain ⟨hlist', -⟩ := h.link hlist hnode hl
    have hpoint := link_insertion (lastId before) node p
    rw [hl] at hpoint
    exact .inr ⟨id, rfl, hlist', hpoint⟩

/-- Inserting behind a node cuts the listing there, or is refused. -/
theorem step_insertAfter {r : Except Error NodeId} (hnode : node.Made)
    (he : insertAfter position node p = (r, p')) :
    Step p.mode h.listing h'.listing (.insertAfter position node) (.added <$> r) := by
  unfold insertAfter at he
  split at he
  · rename_i hc
    obtain ⟨entry, hentry⟩ := Arena.contains_eq_true_iff.mp hc
    obtain ⟨before, after, hlist, -⟩ := h.split hentry
    have hsplit : p.toList = (before ++ [(position, entry.node)]) ++ after := by simp [hlist]
    have hlast : lastId (before ++ [(position, entry.node)]) = some position := by simp [lastId]
    rcases link_cases h hnode hsplit (hlast.symm ▸ he) with
      ⟨e, rfl, rfl⟩ | ⟨id, rfl, hlist', hpoint⟩
    · refine .refused rfl (fun id hid => ?_) rfl
      cases hid
      exact h.contains_iff.mp hc
    · exact .insertAfter hlist (hlist'.trans (by simp)) hpoint
  · rename_i hc
    cases he
    exact .unlisted rfl (fun hmem => hc (h.contains_iff.mpr hmem)) rfl

/-- Inserting in front of a node cuts the listing there, or is refused. -/
theorem step_insertBefore {r : Except Error NodeId} (hnode : node.Made)
    (he : insertBefore position node p = (r, p')) :
    Step p.mode h.listing h'.listing (.insertBefore position node) (.added <$> r) := by
  unfold insertBefore at he
  split at he
  · rename_i entry hentry
    obtain ⟨before, after, hlist, hprev⟩ := h.split hentry
    rcases link_cases h hnode hlist (hprev ▸ he) with ⟨e, rfl, rfl⟩ | ⟨id, rfl, hlist', hpoint⟩
    · refine .refused rfl (fun id hid => ?_) rfl
      cases hid
      exact h.represents.listed _ _ hentry
    · exact .insertBefore hlist hlist' hpoint
  · rename_i hnone
    cases he
    refine .unlisted rfl (fun hmem => ?_) rfl
    obtain ⟨entry, hentry⟩ := Arena.contains_eq_true_iff.mp (h.contains_iff.mpr hmem)
    cases hnone.symm.trans hentry

/-- Moving the insertion point moves nothing else of the listing. -/
theorem step_setCursor {target : Option NodeId} {r : Except Error Unit}
    (he : setCursor target p = (r, p')) :
    Step p.mode h.listing h'.listing (.setCursor target) ((fun _ => .done) <$> r) := by
  unfold setCursor at he
  split at he
  · cases he
    exact .setCursor nofun rfl rfl
  · split at he
    · rename_i hc
      cases he
      refine .setCursor (fun id hid => ?_) rfl rfl
      cases hid
      exact h.contains_iff.mp hc
    · rename_i hc
      cases he
      exact .unlisted rfl (fun hmem => hc (h.contains_iff.mpr hmem)) rfl

/-- Taking a node out closes the gap in the listing, or is refused. -/
theorem step_erase {r : Except Error Node} (he : erase id p = (r, p')) :
    Step p.mode h.listing h'.listing (.erase id) (.erased <$> r) := by
  cases r with
  | error e =>
    unfold erase at he
    split at he
    · rename_i hnone
      cases he
      refine .unlisted rfl (fun hmem => ?_) rfl
      obtain ⟨entry, hentry⟩ := Arena.contains_eq_true_iff.mp (h.contains_iff.mpr hmem)
      cases (Arena.erase_eq_none_iff.mp hnone).symm.trans hentry
    · cases he
  | ok node =>
    obtain ⟨before, after, hlist, hlist', hpoint, -⟩ := h.erase he
    exact .erase hlist hlist' hpoint

/-- Every call does to the list and the insertion point what is said of it. -/
theorem step_apply (hop : op.Made) (h' : (op.apply p).Valid) :
    Step p.mode h.listing h'.listing op (op.answer p) := by
  by_cases hcreates : op.creates = true
  · obtain ⟨hlist, hpoint⟩ := Operation.apply_of_creates (p := p) hcreates
    have hsame := h.listing_eq h' hlist hpoint
    cases hanswer : op.answer p with
    | ok answer => exact .create hcreates hsame
    | error e =>
      obtain ⟨hadds, htarget, -⟩ := Operation.adds_of_creates hcreates p.mode
      exact .refused hadds (fun id hid => by rw [htarget] at hid; cases hid) hsame
  · cases op with
    | emit node => exact step_emit h h' hop rfl rfl rfl rfl
    | emitAddress l =>
      have hmade : Node.Made (.address l (UInt8.ofNat p.mode.pointerBytes)) := trivial
      exact step_emit h h' hmade rfl rfl rfl rfl
    | insertAfter position node => exact step_insertAfter h h' hop rfl
    | insertBefore position node => exact step_insertBefore h h' hop rfl
    | setCursor target => exact step_setCursor h h' rfl
    | erase id => exact step_erase h h' rfl
    | clear => exact .clear rfl rfl
    | _ => exact absurd rfl hcreates

end

/-! ## Runs -/

/-- Two cuts of a list behind the same node are the same. -/
theorem append_inj_of_lastId (hnodup : ((before ++ after).map Prod.fst).Nodup)
    (heq : before ++ after = before' ++ after') (hlast : lastId before = some k)
    (hlast' : lastId before' = some k) : before = before' ∧ after = after' := by
  -- what the one part has more than the other would hold the node a second time
  have hnone {xs m ys : List (NodeId × Node)} (hnodup : ((xs ++ m ++ ys).map Prod.fst).Nodup)
      (hxs : lastId xs = some k) (hm : lastId (xs ++ m) = some k) : m = [] := by
    rw [lastId_append] at hm
    cases hl : lastId m with
    | none => exact eq_nil_of_lastId hl
    | some j =>
      rw [hl, Option.some_or, Option.some.injEq] at hm
      rw [List.map_append, List.map_append] at hnodup
      have hdisjoint := (List.nodup_append.mp (List.nodup_append.mp hnodup).1).2.2
      exact absurd rfl (hdisjoint k (mem_of_lastId hxs) k (mem_of_lastId (hm ▸ hl)))
  rcases List.append_eq_append_iff.mp heq with ⟨m, rfl, rfl⟩ | ⟨m, rfl, rfl⟩
  · obtain rfl := hnone (by simpa using hnodup) hlast hlast'
    exact ⟨(List.append_nil _).symm, rfl⟩
  · obtain rfl := hnone hnodup hlast' hlast
    exact ⟨List.append_nil _, rfl⟩

namespace Listing

variable {s t u : Listing}

/-- The node that a call takes out stands in one place only. -/
theorem Step.items_of_erase {old : Node} {answer : Except Error Operation.Answer}
    (hstep : s.Step mode t (.erase id) answer) (hitems : s.items = before ++ (id, old) :: after) :
    t.items = before ++ after ∧
      t.point = if s.point = .after id then (lastId before).elim .front .after else s.point := by
  cases hstep with
  | emit hnone => cases hnone
  | create hfalse => cases hfalse
  | unlisted htarget hnot =>
    cases htarget
    rw [hitems] at hnot
    exact absurd (by simp) hnot
  | refused hfalse => cases hfalse
  | @erase _ old' before' after' hitems' hrest hmoved =>
    have hcut : (before ++ [(id, old)]) ++ after = (before' ++ [(id, old')]) ++ after' := by
      simpa using hitems.symm.trans hitems'
    have hnodup : ((before ++ [(id, old)] ++ after).map Prod.fst).Nodup := by
      rw [← List.append_cons, ← hitems]
      exact s.nodup
    obtain ⟨hfront, rfl⟩ := append_inj_of_lastId (k := id) hnodup hcut (by simp [lastId])
      (by simp [lastId])
    obtain rfl := List.append_inj_left' hfront rfl
    exact ⟨hrest, hmoved⟩

/-- What is emitted goes in at the insertion point. -/
theorem Step.exists_cut {new : NodeId} (hstep : t.Step mode u op (.ok (.added new)))
    (hop : op.emitted? mode = some node) :
    ∃ before after, t.Cut before after ∧ u.items = before ++ (new, node) :: after := by
  cases hstep with
  | create hcreates _ =>
    obtain ⟨-, -, hnone⟩ := Operation.adds_of_creates hcreates mode
    cases hnone.symm.trans hop
  | insertAfter => cases hop
  | insertBefore => cases hop
  | emit hop' hcut hitems _ =>
    obtain rfl := Option.some.inj (hop.symm.trans hop')
    exact ⟨_, _, hcut, hitems⟩

/-- The insertion point behind a part of the list, or in front of all if that is empty, cuts the
list behind the part. -/
theorem Cut.eq_of_point (hcut : t.Cut before' after') (hitems : t.items = before ++ after)
    (hpoint : t.point = (lastId before).elim .front .after) :
    before' = before ∧ after' = after := by
  obtain ⟨hsplit, hat⟩ := hcut
  have hnodup := t.nodup
  rw [hitems] at hsplit hnodup
  cases hlast : lastId before with
  | none =>
    obtain rfl := eq_nil_of_lastId hlast
    rw [hpoint, hlast] at hat
    obtain rfl : before' = [] := hat
    exact ⟨rfl, hsplit.symm⟩
  | some k =>
    rw [hpoint, hlast] at hat
    obtain ⟨rfl, rfl⟩ := append_inj_of_lastId hnodup hsplit hlast hat
    exact ⟨rfl, rfl⟩

/-- After the node in front of the insertion point is gone, the next node that is emitted takes its
place. -/
theorem emit_after_erase {old : Node} {new : NodeId} {answer : Except Error Operation.Answer}
    (hpoint : s.point = .after id) (hitems : s.items = before ++ (id, old) :: after)
    (herase : s.Step mode t (.erase id) answer) (hop : op.emitted? mode = some node)
    (hemit : t.Step mode u op (.ok (.added new))) : u.items = before ++ (new, node) :: after := by
  obtain ⟨hrest, hmoved⟩ := herase.items_of_erase hitems
  rw [if_pos hpoint] at hmoved
  obtain ⟨before', after', hcut, hitems'⟩ := hemit.exists_cut hop
  obtain ⟨rfl, rfl⟩ := hcut.eq_of_point hrest hmoved
  exact hitems'

end Listing

/-- The program that the first calls of a run lead to. -/
def run (mode : Mode) (ops : List Operation) (n : Nat) : Program :=
  (ops.take n).foldl Operation.apply (Program.empty mode)

/-- The next operation of a run is applied to what the run has led to. -/
theorem run_succ (mode : Mode) {ops : List Operation} {n : Nat} (hop : ops[n]? = some op) :
    run mode ops (n + 1) = op.apply (run mode ops n) := by
  simp [run, List.take_add_one, hop]

/-- A run stays in the mode that it starts in. -/
theorem run_mode (mode : Mode) (ops : List Operation) (n : Nat) : (run mode ops n).mode = mode := by
  have hfold : ∀ (calls : List Operation) (p : Program),
      (calls.foldl Operation.apply p).mode = p.mode := by
    intro calls
    induction calls with
    | nil => exact fun _ => rfl
    | cons op calls ih => exact fun p => (ih _).trans (op.mode_apply p)
  exact hfold _ _

/-- Every program on the way of a run is valid. -/
theorem valid_run (mode : Mode) {ops : List Operation} (hops : ∀ op ∈ ops, op.Made) (n : Nat) :
    (run mode ops n).Valid :=
  (reachable_foldl mode fun op hop => hops op (List.mem_of_mem_take hop)).valid

/-- **Programs are sequences with an insertion point.** Along every run of operations there are
lists of nodes with insertion points that the program shows, and every call does to them what is
said of it. If the node in front of the insertion point is taken out, the next node that is emitted
takes its place. -/
theorem exists_listings (mode : Mode) {ops : List Operation} (hops : ∀ op ∈ ops, op.Made) :
    ∃ s : Nat → Listing, s 0 = .empty ∧ (∀ n ≤ ops.length, (run mode ops n).Shows (s n)) ∧
      (∀ n op, ops[n]? = some op →
        (s n).Step mode (s (n + 1)) op (op.answer (run mode ops n))) ∧
      ∀ n id op node before old after new, ops[n]? = some (.erase id) → ops[n + 1]? = some op →
        op.emitted? mode = some node → (s n).point = .after id →
        (s n).items = before ++ (id, old) :: after →
        op.answer (run mode ops (n + 1)) = .ok (.added new) →
          (s (n + 2)).items = before ++ (new, node) :: after := by
  have hstep (n : Nat) (op : Operation) (hop : ops[n]? = some op) :
      (valid_run mode hops n).listing.Step mode
        (valid_run mode hops (n + 1)).listing op (op.answer (run mode ops n)) := by
    have h := valid_run mode hops n
    have h' := valid_run mode hops (n + 1)
    have hnext := run_succ mode hop
    have happly : (op.apply (run mode ops n)).Valid := hnext ▸ h'
    -- the listing depends on the program, not on how it is known to be valid
    have hsame : h'.listing = happly.listing :=
      happly.listing_eq h' (congrArg toList hnext) (congrArg insertion hnext)
    have hmade := hops op (List.mem_of_getElem? hop)
    have hresult := step_apply h hmade happly
    rwa [run_mode, ← hsame] at hresult
  refine ⟨fun n => (valid_run mode hops n).listing, rfl,
    fun n _ => (valid_run mode hops n).shows, hstep, ?_⟩
  intro n id op node before old after new herase hop hemitted hpoint hitems hanswer
  have hemit := hstep (n + 1) op hop
  rw [hanswer] at hemit
  exact Listing.emit_after_erase hpoint hitems (hstep n _ herase) hemitted hemit

/-- Two nodes, of which the first is replaced by taking it out from in front of the insertion
point. -/
def headReplacement : List Operation :=
  [.emit (.instruction ⟨.nop, []⟩), .emit (.instruction ⟨.hlt, []⟩), .setCursor (some ⟨0, 0⟩),
    .erase ⟨0, 0⟩, .emit (.instruction ⟨.int3, []⟩)]

/-- Erasing the first node and emitting puts the new node first. -/
theorem listing_headReplacement :
    (∀ op ∈ headReplacement, op.Made) ∧
      ∃ s : Nat → Listing, (run .long64 headReplacement 5).Shows (s 5) ∧
        (s 5).items =
          [(⟨0, 1⟩, .instruction ⟨.int3, []⟩), (⟨1, 0⟩, .instruction ⟨.hlt, []⟩)] := by
  have hmade : ∀ op ∈ headReplacement, op.Made := by
    intro op hop
    simp only [headReplacement, List.mem_cons, List.not_mem_nil, or_false] at hop
    rcases hop with rfl | rfl | rfl | rfl | rfl <;> trivial
  obtain ⟨s, -, hshows, -, hplace⟩ := exists_listings .long64 hmade
  refine ⟨hmade, s, hshows 5 (by decide), ?_⟩
  have hthree := hshows 3 (by decide)
  refine hplace 3 ⟨0, 0⟩ (.emit (.instruction ⟨.int3, []⟩)) _ [] (.instruction ⟨.nop, []⟩) _ _ rfl
    rfl rfl ?_ ?_ ?_
  · rw [← hthree.insertion_eq]
    decide +kernel
  · rw [← hthree.toList_eq]
    decide +kernel
  · decide +kernel

end X86Asm.Program
