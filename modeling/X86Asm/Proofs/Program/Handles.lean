import X86Asm.Proofs.Program.Listing
import X86Asm.Proofs.Program.Registry

/-!
# Ids whose nodes are gone

A slot of the arena moves on to the next generation whenever its node is taken out, so the ids of a
program stay different as long as fewer nodes are taken out than a generation has values. That
lasts until the program is cleared: the slots are forgotten with their generations, and the ids
start over. `stale_ids` tells how long an id whose node is gone is rejected, and that exactly the
runs that put nodes in before and after clearing issue an id twice.

What a call does to the slots is said once, in `SlotStep`. The rest follows from it by induction
over the calls of a run.
-/

namespace X86Asm

namespace Program

variable {p p' : Program} {a a' : Arena Entry} {id other : NodeId} {node : Node}
  {op : Operation} {r : Except Error Operation.Answer} {mode : Mode} {ops : List Operation}
  {i j n : Nat}

/-! ## Ids without a node -/

/-- The program has no node with the id. Nothing is found, and every call that names the id is
refused and changes nothing. -/
structure Rejects (p : Program) (id : NodeId) : Prop where
  node?_eq : p.node? id = none
  next?_eq : p.next? id = none
  prev?_eq : p.prev? id = none
  refused : ∀ op : Operation, op.target? = some id →
    op.answer p = .error .invalidNode ∧ op.apply p = p

/-- A program rejects exactly the ids that have no node. -/
theorem rejects_iff : p.Rejects id ↔ p.nodes.contains id = false := by
  rw [Arena.contains, Option.isSome_eq_false_iff, Option.isNone_iff_eq_none]
  constructor
  · intro h
    exact Option.map_eq_none_iff.mp h.node?_eq
  · intro hnone
    have hfree : p.nodes.contains id = false := by simp [Arena.contains, hnone]
    refine ⟨by simp [node?, hnone], by simp [next?, hnone], by simp [prev?, hnone], ?_⟩
    intro op htarget
    cases op with
    | insertAfter position node =>
      cases htarget
      simp [Operation.answer, Operation.apply, insertAfter, hfree]
    | insertBefore position node =>
      cases htarget
      simp [Operation.answer, Operation.apply, insertBefore, hnone]
    | setCursor position =>
      cases htarget
      simp [Operation.answer, Operation.apply, setCursor, hfree]
    | erase id =>
      cases htarget
      simp [Operation.answer, Operation.apply, erase, Arena.erase, hnone]
    | _ => cases htarget

/-! ## What a call does to the slots -/

/-- What a call does to the slots, by what it returns. -/
inductive SlotStep (a a' : Arena Entry) : Operation → Except Error Operation.Answer → Prop
  /-- A node goes into a free slot, whose generation its id has, or into a new slot. -/
  | added {op : Operation} {id : NodeId} :
      op.adds →
      (a.status? id.index.toNat = some (id.generation, false) ∨
        (a.status? id.index.toNat = none ∧ id.index.toNat = a.capacity ∧ id.generation = 0)) →
      (∀ i, a'.status? i =
        if id.index.toNat = i then some (id.generation, true) else a.status? i) →
      SlotStep a a' op (.ok (.added id))
  /-- A node leaves its slot, which moves on to the next generation. -/
  | erased {id : NodeId} {node : Node} :
      a.status? id.index.toNat = some (id.generation, true) →
      (∀ i, a'.status? i =
        if id.index.toNat = i then some (id.generation + 1, false) else a.status? i) →
      SlotStep a a' (.erase id) (.ok (.erased node))
  /-- The slots are forgotten. -/
  | clear : a' = ∅ → SlotStep a a' .clear (.ok .done)
  /-- Nothing else touches the slots. -/
  | kept {op : Operation} {r : Except Error Operation.Answer} :
      op ≠ .clear → (∀ id, r ≠ .ok (.added id)) → (∀ node, r ≠ .ok (.erased node)) → a' = a →
      SlotStep a a' op r

/-- What returns neither an id that it adds nor a node that it takes out leaves the slots alone. -/
theorem SlotStep.kept_map {α : Type} {f : α → Operation.Answer} {x : Except Error α}
    (hclear : op ≠ .clear) (hadded : ∀ v id, f v ≠ .added id)
    (herased : ∀ v node, f v ≠ .erased node) (h : a' = a) : SlotStep a a' op (f <$> x) := by
  refine .kept hclear (fun id hx => ?_) (fun node hx => ?_) h
  · obtain ⟨v, -, hv⟩ := map_eq_ok_iff.mp hx
    exact hadded v id hv
  · obtain ⟨v, -, hv⟩ := map_eq_ok_iff.mp hx
    exact herased v node hv

/-- Relinking frees no slot, takes none, and leaves all generations. -/
theorem status?_relink (p : Program) (left right onward back : Option NodeId) (node : Node)
    (place : Option NodeId) (i : Nat) :
    (((p.setNext left onward).setPrev right back).setPlace node place).nodes.status? i =
      p.nodes.status? i := by
  rw [setPlace_nodes]
  cases left <;> cases right <;> simp [setNext, setPrev]

/-- Creating a label or section touches no node. -/
theorem nodes_of_creates (hop : op.creates = true) : (op.apply p).nodes = p.nodes := by
  have hpush (name : Option NameId) (p : Program) : (pushLabel name p).2.nodes = p.nodes := by
    unfold pushLabel
    split <;> rfl
  cases op with
  | createLabel => exact hpush none p
  | createNamedLabel name => exact hpush _ { p with names := (p.names.intern name).2 }
  | createSection name flags alignment =>
    show (Program.createSection name flags alignment p).2.nodes = p.nodes
    unfold Program.createSection
    split <;> try split
    all_goals rfl
  | _ => cases hop

/-- A place that the program does not have is refused. -/
theorem Valid.put_of_not_open (h : p.Valid) {spot : Spot} (hclosed : ¬ spot.Open p) (node : Node) :
    spot.put node p = (.error .invalidNode, p) := by
  cases spot with
  | insertionPoint => exact absurd trivial hclosed
  | behind position =>
    rw [Spot.put, Program.insertAfter, if_neg (fun hc => hclosed (h.contains_iff.mp hc))]
  | inFrontOf position =>
    rw [Spot.put, Program.insertBefore, h.represents.get?_eq_none hclosed]

/-- Wherever a node is put in, it takes one slot, or none if it is refused. -/
theorem Valid.slotStep_put (h : p.Valid) (spot : Spot) (node : Node) (hadds : op.adds = true) :
    SlotStep p.nodes (spot.put node p).2.nodes op (.added <$> (spot.put node p).1) := by
  have hclear : op ≠ .clear := by
    rintro rfl
    cases hadds
  by_cases hopen : spot.Open p
  · obtain ⟨prev, hlink⟩ := h.exists_link hopen
    rw [(hlink node).1, (hlink node).2]
    rcases hl : Program.link prev node p with ⟨r, p'⟩
    cases r with
    | error e =>
      obtain rfl := link_eq_error hl
      exact .kept hclear nofun nofun rfl
    | ok id =>
      obtain ⟨-, nodes, hins, rfl⟩ := link_eq_ok hl
      obtain ⟨hold, hnew⟩ := Arena.status?_insert h.arena hins
      exact .added hadds hold fun i => (status?_relink { p with nodes } ..).trans (hnew i)
  · rw [h.put_of_not_open hopen]
    exact .kept hclear nofun nofun rfl

/-- What each operation does to the slots. -/
theorem Valid.slotStep_apply (h : p.Valid) (op : Operation) :
    SlotStep p.nodes (op.apply p).nodes op (op.answer p) := by
  cases op with
  | createLabel => exact .kept_map nofun nofun nofun (nodes_of_creates rfl)
  | createNamedLabel name => exact .kept_map nofun nofun nofun (nodes_of_creates rfl)
  | createSection name flags alignment =>
    exact .kept_map nofun nofun nofun (nodes_of_creates rfl)
  | emit node => exact h.slotStep_put .insertionPoint node rfl
  | emitAddress l => exact h.slotStep_put .insertionPoint _ rfl
  | insertAfter position node => exact h.slotStep_put (.behind position) node rfl
  | insertBefore position node => exact h.slotStep_put (.inFrontOf position) node rfl
  | setCursor position =>
    refine .kept_map nofun nofun nofun ?_
    show (Program.setCursor position p).2.nodes = p.nodes
    unfold Program.setCursor
    split <;> try split
    all_goals rfl
  | erase id =>
    show SlotStep p.nodes (Program.erase id p).2.nodes _ (.erased <$> (Program.erase id p).1)
    rcases he : Program.erase id p with ⟨r, p'⟩
    cases r with
    | error e =>
      obtain rfl := erase_eq_error he
      exact .kept nofun nofun nofun rfl
    | ok node =>
      obtain ⟨entry, nodes, herase, rfl, rfl⟩ := erase_eq_ok he
      obtain ⟨hold, hnew⟩ := Arena.status?_erase herase
      -- linking the neighbours and unbinding take and free no slot
      exact .erased hold fun i =>
        (status?_relink { p with nodes, insertion := _ } ..).trans (hnew i)
  | clear => exact .clear rfl

/-! ## Ids that are in use or spent -/

/-- A call that returns an id returns one that was never used. -/
theorem SlotStep.not_used (hs : SlotStep a a' op (.ok (.added id))) : ¬ a.Used id := by
  cases hs with
  | added _ hold hnew => exact Arena.Fills.not_used ⟨hold, hnew⟩
  | kept _ hadded _ _ => exact absurd rfl (hadded id)

/-- The id that a call returns has a node. -/
theorem SlotStep.contains_added (hs : SlotStep a a' op (.ok (.added id))) :
    a'.contains id = true := by
  cases hs with
  | added _ hold hnew => exact Arena.Fills.contains ⟨hold, hnew⟩
  | kept _ hadded _ _ => exact absurd rfl (hadded id)

/-- An id that has a node afterwards had it before, or is returned. -/
theorem SlotStep.contains_of_contains (hs : SlotStep a a' op r) (h : a'.contains id = true) :
    r = .ok (.added id) ∨ a.contains id = true := by
  rw [Arena.contains_iff_status?] at h ⊢
  cases hs with
  | @added _ other _ _ hnew =>
    rw [hnew] at h
    split at h
    · rename_i hindex
      left
      -- in the slot that was filled only the returned id has the generation of the slot
      obtain ⟨index, generation⟩ := id
      obtain ⟨index', generation'⟩ := other
      obtain rfl := UInt32.toNat_inj.mp hindex
      simp_all
    · exact .inr h
  | erased _ hnew =>
    rw [hnew] at h
    split at h
    · simp at h
    · exact .inr h
  | clear hempty =>
    rw [hempty, Arena.status?_empty] at h
    cases h
  | kept _ _ _ hsame => exact .inr (hsame ▸ h)

/-- A node that is taken out or dropped is gone. -/
theorem SlotStep.not_contains (hs : SlotStep a a' op r)
    (h : op = .clear ∨ ∃ node, op = .erase id ∧ r = .ok (.erased node)) :
    a'.contains id = false := by
  rw [← Bool.not_eq_true, Arena.contains_iff_status?]
  cases hs with
  | added hadds _ _ =>
    rcases h with rfl | ⟨_, rfl, _⟩ <;> cases hadds
  | erased _ hnew =>
    rcases h with h | ⟨_, h, _⟩ <;> cases h
    rw [hnew, if_pos rfl]
    simp
  | clear hempty => simp [hempty]
  | kept hclear _ herased _ =>
    rcases h with h | ⟨node, _, h⟩
    · exact absurd h hclear
    · exact absurd h (herased node)

/-- As long as generations do not start over, an id that was used stays so. -/
theorem SlotStep.used (hs : SlotStep a a' op r) (hclear : op ≠ .clear)
    (hwrap : ∀ node, r = .ok (.erased node) → ∀ i g occupied,
      a.status? i = some (g, occupied) → g.toNat + 1 < UInt32.size)
    (h : a.Used id) : a'.Used id := by
  cases hs with
  | added _ hold hnew => exact Arena.Fills.used ⟨hold, hnew⟩ h
  | @erased _ node hold hnew =>
    exact Arena.Frees.used ⟨hold, hnew⟩ (hwrap node rfl _ _ _ hold) h
  | clear hempty => exact absurd rfl hclear
  | kept _ _ _ hsame => exact hsame ▸ h

/-- A generation counts the times that a node was taken out of its slot. -/
theorem SlotStep.generation_le (hs : SlotStep a a' op r) {count : Nat}
    (h : ∀ i g occupied, a.status? i = some (g, occupied) → g.toNat ≤ count) (i : Nat)
    {g : UInt32} {occupied : Bool} (hg : a'.status? i = some (g, occupied)) :
    g.toNat ≤ count ∨ ((∃ node, r = .ok (.erased node)) ∧ g.toNat ≤ count + 1) := by
  cases hs with
  | added _ hold hnew => exact .inl (Arena.Fills.freedAtMost ⟨hold, hnew⟩ h _ _ _ hg)
  | @erased _ node hold hnew =>
    exact .inr ⟨⟨node, rfl⟩, Arena.Frees.freedAtMost ⟨hold, hnew⟩ h _ _ _ hg⟩
  | clear hempty =>
    rw [hempty, Arena.status?_empty] at hg
    cases hg
  | kept _ _ _ hsame => exact .inl (h _ _ _ (hsame ▸ hg))

/-- The first id of an arena without slots. -/
theorem SlotStep.eq_first (hs : SlotStep a a' op (.ok (.added id)))
    (hempty : ∀ i, a.status? i = none) : id = ⟨0, 0⟩ := by
  cases hs with
  | added _ hold _ =>
    rcases hold with hold | ⟨-, hindex, hgeneration⟩
    · cases (hempty _).symm.trans hold
    · rw [Arena.capacity_eq_zero (hempty 0)] at hindex
      obtain ⟨index, generation⟩ := id
      obtain rfl : index = 0 := UInt32.toNat_inj.mp hindex
      exact congrArg _ hgeneration
  | kept _ hadded _ _ => exact absurd rfl (hadded id)

/-- An arena stays without slots until a node is put in. -/
theorem SlotStep.empty (hs : SlotStep a a' op r) (hempty : ∀ i, a.status? i = none)
    (hadded : ∀ id, r ≠ .ok (.added id)) (i : Nat) : a'.status? i = none := by
  cases hs with
  | added _ _ _ => exact absurd rfl (hadded _)
  | erased hold _ => cases (hempty _).symm.trans hold
  | clear hforgotten => rw [hforgotten, Arena.status?_empty]
  | kept _ _ _ hsame => rw [hsame, hempty]

/-! ## Runs -/

/-- The call with a number puts a node in and returns its id. -/
def Issues (mode : Mode) (ops : List Operation) (n : Nat) (id : NodeId) : Prop :=
  ∃ op, ops[n]? = some op ∧ op.answer (run mode ops n) = .ok (.added id)

/-- The call with a number takes the node with the id out, or drops all nodes. -/
def Drops (mode : Mode) (ops : List Operation) (n : Nat) (id : NodeId) : Prop :=
  ops[n]? = some .clear ∨ ∃ node, ops[n]? = some (.erase id) ∧
    (Operation.erase id).answer (run mode ops n) = .ok (.erased node)

/-- The call takes a node out. -/
def Operation.removes (p : Program) (op : Operation) : Bool :=
  match op.answer p with
  | .ok (.erased _) => true
  | _ => false

/-- How many of the first calls of a run take a node out. -/
def removals (mode : Mode) (ops : List Operation) (n : Nat) : Nat :=
  (List.range n).countP fun k => (ops[k]?).any (·.removes (run mode ops k))

/-- Once the node of an id is gone, the id is rejected ever after. -/
def NeverHonoured (mode : Mode) (ops : List Operation) : Prop :=
  ∀ i k n id, i < k → k < n → n ≤ ops.length → Issues mode ops i id → Drops mode ops k id →
    (run mode ops n).Rejects id

/-- No two calls return the same id. -/
def NeverReissued (mode : Mode) (ops : List Operation) : Prop :=
  ∀ i j id, Issues mode ops i id → Issues mode ops j id → i = j

/-- Nodes are put in before and after the program is cleared. -/
def Refilled (mode : Mode) (ops : List Operation) : Prop :=
  ∃ i c j id other, i < c ∧ c < j ∧ Issues mode ops i id ∧ ops[c]? = some .clear ∧
    Issues mode ops j other

/-- The next call of a run takes out at most one node more. -/
theorem removals_succ (mode : Mode) (hop : ops[n]? = some op) :
    removals mode ops (n + 1) =
      removals mode ops n + if op.removes (run mode ops n) then 1 else 0 := by
  simp [removals, List.range_succ, hop, List.countP_cons]

/-- The longer a run, the more nodes were taken out. -/
theorem removals_mono (mode : Mode) (ops : List Operation) {m : Nat} (h : n ≤ m) :
    removals mode ops n ≤ removals mode ops m :=
  (List.range_sublist.mpr h).countP_le

section

variable (hops : ∀ op ∈ ops, op.Made)

include hops

/-- What the next call of a run does to the slots. -/
theorem slotStep_run (mode : Mode) (hop : ops[n]? = some op) :
    SlotStep (run mode ops n).nodes (run mode ops (n + 1)).nodes op
      (op.answer (run mode ops n)) := by
  rw [run_succ mode hop]
  exact (valid_run mode hops n).slotStep_apply op

/-- No generation is greater than the number of nodes that were taken out. -/
theorem generation_le_removals (hn : n ≤ ops.length) :
    ∀ i g occupied, (run mode ops n).nodes.status? i = some (g, occupied) →
      g.toNat ≤ removals mode ops n := by
  induction n with
  | zero =>
    intro i g occupied hg
    cases (Arena.status?_empty i).symm.trans hg
  | succ n ih =>
    intro i g occupied hg
    have hop := List.getElem?_eq_getElem hn
    rw [removals_succ mode hop]
    rcases (slotStep_run hops mode hop).generation_le (ih (Nat.le_of_lt hn)) i hg with
      hle | ⟨⟨node, hnode⟩, hle⟩
    · exact Nat.le_add_right_of_le hle
    · rw [if_pos (by rw [Operation.removes, hnode])]
      exact hle

/-- An id stays used until the program is cleared. -/
theorem used_of_issues (hfew : removals mode ops ops.length < UInt32.size)
    (hi : Issues mode ops i id) {n : Nat} (hin : i < n) (hn : n ≤ ops.length)
    (hclear : ∀ k, i < k → k < n → ops[k]? ≠ some .clear) : (run mode ops n).nodes.Used id := by
  obtain ⟨op, hop, hanswer⟩ := hi
  induction hin with
  | refl =>
    have hstep := slotStep_run hops mode hop
    rw [hanswer] at hstep
    exact Arena.used_of_contains hstep.contains_added
  | @step n hin ih =>
    have hnext := List.getElem?_eq_getElem hn
    have hused := ih (Nat.le_of_lt hn) fun k hik hkn => hclear k hik (Nat.lt_succ_of_lt hkn)
    have hkept : ops[n] ≠ .clear := by
      intro hc
      exact hclear n hin (Nat.lt_succ_self n) (by rw [hnext, hc])
    refine (slotStep_run hops mode hnext).used hkept ?_ hused
    -- the call that takes a node out is counted as well
    intro node hnode i g occupied hg
    have hle := generation_le_removals hops (Nat.le_of_lt hn) i g occupied hg
    have hcount := removals_succ mode hnext
    rw [if_pos (by rw [Operation.removes, hnode])] at hcount
    have hmono : removals mode ops (n + 1) ≤ _ := removals_mono mode ops hn
    omega

/-- An id is returned twice only if the program is cleared in between. -/
theorem exists_clear_of_issues (hfew : removals mode ops ops.length < UInt32.size) (hij : i < j)
    (hi : Issues mode ops i id) (hj : Issues mode ops j id) :
    ∃ c, i < c ∧ c < j ∧ ops[c]? = some .clear := by
  by_contra hnone
  obtain ⟨op, hop, hanswer⟩ := hj
  have hlt := (List.getElem?_eq_some_iff.mp hop).1
  have hused := used_of_issues hops hfew hi hij (Nat.le_of_lt hlt)
    fun c hic hcj hc => hnone ⟨c, hic, hcj, hc⟩
  have hstep := slotStep_run hops mode hop
  rw [hanswer] at hstep
  exact hstep.not_used hused

/-- An id whose node is gone has a node again only if a call has returned the id anew. -/
theorem exists_issues_of_contains {k : Nat} (hk : Drops mode ops k id) (hkn : k < n)
    (hn : n ≤ ops.length) (h : (run mode ops n).nodes.contains id = true) :
    ∃ j, k < j ∧ j < n ∧ Issues mode ops j id := by
  induction hkn with
  | refl =>
    -- the call that drops the node leaves none behind
    have hop := List.getElem?_eq_getElem hn
    have hgone : (run mode ops (k + 1)).nodes.contains id = false := by
      refine (slotStep_run hops mode hop).not_contains ?_
      rcases hk with hclear | ⟨node, herase, hanswer⟩
      · exact .inl (Option.some.inj (hop.symm.trans hclear))
      · have heq := Option.some.inj (hop.symm.trans herase)
        exact .inr ⟨node, heq, heq ▸ hanswer⟩
    cases hgone.symm.trans h
  | @step n hkn ih =>
    have hop := List.getElem?_eq_getElem hn
    rcases (slotStep_run hops mode hop).contains_of_contains h with hanswer | hold
    · exact ⟨n, hkn, Nat.lt_succ_self n, _, hop, hanswer⟩
    · obtain ⟨j, hkj, hjn, hj⟩ := ih (Nat.le_of_lt hn) hold
      exact ⟨j, hkj, Nat.lt_succ_of_lt hjn, hj⟩

/-- From a state without slots only the first id of all can be returned. -/
theorem issues_first_of_empty (hempty : ∀ i, (run mode ops n).nodes.status? i = none)
    (h : Issues mode ops n other) : Issues mode ops n ⟨0, 0⟩ := by
  obtain ⟨op, hop, hanswer⟩ := h
  have hstep := slotStep_run hops mode hop
  rw [hanswer] at hstep
  obtain rfl := hstep.eq_first hempty
  exact ⟨op, hop, hanswer⟩

/-- The first id that is returned from a state without slots is always the same. -/
theorem exists_issues_first (hempty : ∀ i, (run mode ops n).nodes.status? i = none) (hnj : n ≤ j)
    (hj : Issues mode ops j other) : ∃ k, n ≤ k ∧ k ≤ j ∧ Issues mode ops k ⟨0, 0⟩ := by
  obtain ⟨d, rfl⟩ := Nat.exists_eq_add_of_le hnj
  induction d generalizing n with
  | zero => exact ⟨n, Nat.le_refl n, Nat.le_refl n, issues_first_of_empty hops hempty hj⟩
  | succ d ih =>
    by_cases hadded : ∃ id, Issues mode ops n id
    · obtain ⟨id, hid⟩ := hadded
      exact ⟨n, Nat.le_refl n, hnj, issues_first_of_empty hops hempty hid⟩
    · -- no node is put in yet, so the next state has no slots either
      have hlt : n < ops.length := by
        obtain ⟨op, hop, -⟩ := hj
        exact Nat.lt_of_le_of_lt hnj (List.getElem?_eq_some_iff.mp hop).1
      have hop := List.getElem?_eq_getElem hlt
      have hnext := (slotStep_run hops mode hop).empty hempty
        fun id hanswer => hadded ⟨id, _, hop, hanswer⟩
      have heq : n + (d + 1) = n + 1 + d := Nat.add_right_comm n d 1
      obtain ⟨k, hnk, hkj, hk⟩ := ih hnext (Nat.le_add_right _ d) (heq ▸ hj)
      exact ⟨k, Nat.le_of_succ_le hnk, heq ▸ hkj, hk⟩

/-- Whoever puts nodes in before and after clearing gets an id twice. -/
theorem Refilled.exists_issues (h : Refilled mode ops) :
    ∃ i c j, i < c ∧ c < j ∧ Issues mode ops i ⟨0, 0⟩ ∧ ops[c]? = some .clear ∧
      Issues mode ops j ⟨0, 0⟩ := by
  obtain ⟨i, c, j, id, other, hic, hcj, hi, hc, hj⟩ := h
  have hcleared : ∀ i, (run mode ops (c + 1)).nodes.status? i = none := by
    rw [run_succ mode hc]
    exact Arena.status?_empty
  have hstart : ∀ i, (run mode ops 0).nodes.status? i = none := Arena.status?_empty
  obtain ⟨i', -, hi', hfirst⟩ := exists_issues_first hops hstart (Nat.zero_le i) hi
  obtain ⟨j', hj', -, hsecond⟩ := exists_issues_first hops hcleared hcj hj
  exact ⟨i', c, j', Nat.lt_of_le_of_lt hi' hic, hj', hfirst, hc, hsecond⟩

/-- An id is not rejected after the call that returns it. -/
theorem not_rejects_of_issues (h : Issues mode ops n id) :
    n + 1 ≤ ops.length ∧ ¬ (run mode ops (n + 1)).Rejects id := by
  obtain ⟨op, hop, hanswer⟩ := h
  have hstep := slotStep_run hops mode hop
  rw [hanswer] at hstep
  refine ⟨(List.getElem?_eq_some_iff.mp hop).1, fun hrejects => ?_⟩
  rw [rejects_iff, hstep.contains_added] at hrejects
  cases hrejects

/-- An id whose node is gone is rejected until a call returns it anew, which takes clearing the
program first. -/
theorem rejects_of_drops (hfew : removals mode ops ops.length < UInt32.size) {k : Nat} (hik : i < k)
    (hkn : k < n) (hn : n ≤ ops.length) (hi : Issues mode ops i id) (hk : Drops mode ops k id) :
    (run mode ops n).Rejects id ∨
      ∃ c j, i < c ∧ c < j ∧ k < j ∧ j < n ∧ ops[c]? = some .clear ∧ Issues mode ops j id := by
  rw [rejects_iff]
  cases hlive : (run mode ops n).nodes.contains id with
  | false => exact .inl rfl
  | true =>
    obtain ⟨j, hkj, hjn, hj⟩ := exists_issues_of_contains hops hk hkn hn hlive
    obtain ⟨c, hic, hcj, hc⟩ := exists_clear_of_issues hops hfew (Nat.lt_trans hik hkj) hi hj
    exact .inr ⟨c, j, hic, hcj, hkj, hjn, hc, hj⟩

/-- Ids of nodes that are gone are rejected for good exactly in runs that do not fill the program
again after clearing it. -/
theorem neverHonoured_iff (hfew : removals mode ops ops.length < UInt32.size) :
    NeverHonoured mode ops ↔ ¬ Refilled mode ops := by
  constructor
  · intro hnever hrefilled
    obtain ⟨i, c, j, hic, hcj, hi, hc, hj⟩ := hrefilled.exists_issues hops
    obtain ⟨hlen, hlive⟩ := not_rejects_of_issues hops hj
    exact hlive (hnever i c (j + 1) _ hic (Nat.lt_succ_of_lt hcj) hlen hi (.inl hc))
  · intro hnot i k n id hik hkn hn hi hk
    rcases rejects_of_drops hops hfew hik hkn hn hi hk with
      hrejects | ⟨c, j, hic, hcj, -, -, hc, hj⟩
    · exact hrejects
    · exact absurd ⟨i, c, j, id, id, hic, hcj, hi, hc, hj⟩ hnot

/-- No id is returned twice exactly in runs that do not fill the program again after clearing it. -/
theorem neverReissued_iff (hfew : removals mode ops ops.length < UInt32.size) :
    NeverReissued mode ops ↔ ¬ Refilled mode ops := by
  constructor
  · intro hnever hrefilled
    obtain ⟨i, c, j, hic, hcj, hi, -, hj⟩ := hrefilled.exists_issues hops
    exact Nat.ne_of_lt (Nat.lt_trans hic hcj) (hnever i j _ hi hj)
  · intro hnot i j id hi hj
    -- of two calls that return one id, clearing the program separates the first from the second
    have hlt {i j : Nat} (hi : Issues mode ops i id) (hj : Issues mode ops j id) : ¬ i < j := by
      intro hij
      obtain ⟨c, hic, hcj, hc⟩ := exists_clear_of_issues hops hfew hij hi hj
      exact hnot ⟨i, c, j, id, id, hic, hcj, hi, hc, hj⟩
    exact Nat.le_antisymm (Nat.le_of_not_lt (hlt hj hi)) (Nat.le_of_not_lt (hlt hi hj))

end

/-- **Ids whose nodes are gone are rejected, unless the program is cleared and filled again.** In a
run that takes out fewer nodes than there are generations, an id whose node was taken out or dropped
is rejected in every later state, or else the program was cleared in between and a call has returned
the id anew. That happens to some id exactly in the runs that put nodes in before and after clearing
the program. -/
theorem stale_ids (mode : Mode) {ops : List Operation} (hops : ∀ op ∈ ops, op.Made)
    (hfew : removals mode ops ops.length < 4294967296) :
    (∀ i k n id, i < k → k < n → n ≤ ops.length → Issues mode ops i id → Drops mode ops k id →
      (run mode ops n).Rejects id ∨
        ∃ c j, i < c ∧ c < j ∧ k < j ∧ j < n ∧ ops[c]? = some .clear ∧ Issues mode ops j id) ∧
      (NeverHonoured mode ops ↔ ¬ Refilled mode ops) ∧
      (NeverReissued mode ops ↔ ¬ Refilled mode ops) :=
  ⟨fun _ _ _ _ hik hkn hn hi hk => rejects_of_drops hops hfew hik hkn hn hi hk,
    neverHonoured_iff hops hfew, neverReissued_iff hops hfew⟩

/-- A node goes in after another was taken out. -/
def reusedSlot : List Operation :=
  [.emit (.instruction ⟨.nop, []⟩), .erase ⟨0, 0⟩, .emit (.instruction ⟨.hlt, []⟩)]

/-- A slot that is used again does not bring the old id back. -/
theorem stale_ids_reusedSlot :
    (∀ op ∈ reusedSlot, op.Made) ∧ removals .long64 reusedSlot reusedSlot.length < 4294967296 ∧
      (run .long64 reusedSlot 3).Rejects ⟨0, 0⟩ := by
  have hmade : ∀ op ∈ reusedSlot, op.Made := by
    intro op hop
    simp only [reusedSlot, List.mem_cons, List.not_mem_nil, or_false] at hop
    rcases hop with rfl | rfl | rfl <;> trivial
  have hfew : removals .long64 reusedSlot reusedSlot.length < 4294967296 := by decide +kernel
  obtain ⟨hrejected, -, -⟩ := stale_ids .long64 hmade hfew
  refine ⟨hmade, hfew, ?_⟩
  have hissues : Issues .long64 reusedSlot 0 ⟨0, 0⟩ := ⟨_, rfl, by decide +kernel⟩
  have hdrops : Drops .long64 reusedSlot 1 ⟨0, 0⟩ :=
    .inr ⟨.instruction ⟨.nop, []⟩, rfl, by decide +kernel⟩
  rcases hrejected 0 1 3 ⟨0, 0⟩ (by decide) (by decide) (by decide) hissues hdrops with
    h | ⟨c, j, hic, hcj, -, hjn, hc, -⟩
  · exact h
  · -- the call in between takes a node out
    obtain rfl : c = 1 := by omega
    cases hc

/-- A node goes in after the program was cleared. -/
def refilledProgram : List Operation :=
  [.emit (.instruction ⟨.nop, []⟩), .clear, .emit (.instruction ⟨.hlt, []⟩)]

/-- The id of the node that was dropped takes out the node that was put in after it. -/
theorem honoured_refilledProgram :
    (∀ op ∈ refilledProgram, op.Made) ∧
      removals .long64 refilledProgram refilledProgram.length < 4294967296 ∧
      Issues .long64 refilledProgram 0 ⟨0, 0⟩ ∧ Issues .long64 refilledProgram 2 ⟨0, 0⟩ ∧
      ¬ NeverHonoured .long64 refilledProgram ∧ ¬ NeverReissued .long64 refilledProgram ∧
      (erase ⟨0, 0⟩ (run .long64 refilledProgram 3)).1 = .ok (.instruction ⟨.hlt, []⟩) := by
  have hmade : ∀ op ∈ refilledProgram, op.Made := by
    intro op hop
    simp only [refilledProgram, List.mem_cons, List.not_mem_nil, or_false] at hop
    rcases hop with rfl | rfl | rfl <;> trivial
  have hfirst : Issues .long64 refilledProgram 0 ⟨0, 0⟩ := ⟨_, rfl, by decide +kernel⟩
  have hsecond : Issues .long64 refilledProgram 2 ⟨0, 0⟩ := ⟨_, rfl, by decide +kernel⟩
  refine ⟨hmade, by decide +kernel, hfirst, hsecond, fun hnever => ?_, fun hnever => ?_,
    by decide +kernel⟩
  · have hrejected := hnever 0 1 3 ⟨0, 0⟩ (by decide) (by decide) (by decide) hfirst (.inl rfl)
    have hfound : (run .long64 refilledProgram 3).node? ⟨0, 0⟩ =
        some (.instruction ⟨.hlt, []⟩) := by decide +kernel
    cases hfound.symm.trans hrejected.node?_eq
  · cases hnever 0 2 ⟨0, 0⟩ hfirst hsecond

end Program

end X86Asm
