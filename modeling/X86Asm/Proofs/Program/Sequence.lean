import X86Asm.Program.Edit
import X86Asm.Proofs.Arena

/-!
# The links of a program spell out a list

`Program.Represents p items` says that the arena, the links and the two ends of `p` spell out the
list `items` of nodes with their ids. Then `Program.toList` is that list (`Represents.toList_eq`).

The two changes to the links are read off the list: `Represents.insert` puts a node between two
neighbours, and `Represents.erase` takes one out from between them. Both rest on one lemma that
tells what becomes of every entry of the arena, so the proofs only go through the places at which
a node can stand: in front of the change, at it, or behind it.
-/

namespace X86Asm.Program

variable {p p' : Program} {items before after : List (NodeId × Node)} {id k : NodeId} {node : Node}

/-- The id that a list starts with. -/
def firstId (items : List (NodeId × Node)) : Option NodeId := items.head?.map Prod.fst

/-- The id that a list ends with. -/
def lastId (items : List (NodeId × Node)) : Option NodeId := items.getLast?.map Prod.fst

/-- The program holds the listed nodes in the order of the list, and nothing else. -/
structure Represents (p : Program) (items : List (NodeId × Node)) : Prop where
  nodup : (items.map Prod.fst).Nodup
  head_eq : p.head = firstId items
  tail_eq : p.tail = lastId items
  entry : ∀ before id node after, items = before ++ (id, node) :: after →
    p.nodes.get? id = some ⟨node, lastId before, firstId after⟩
  listed : ∀ id entry, p.nodes.get? id = some entry → id ∈ items.map Prod.fst

/-! ## Ends of lists -/

@[simp] theorem firstId_nil : firstId [] = none := rfl

@[simp] theorem firstId_cons (x : NodeId × Node) (xs : List (NodeId × Node)) :
    firstId (x :: xs) = some x.1 := rfl

@[simp] theorem lastId_nil : lastId [] = none := rfl

/-- Two lists start with what the first of them starts with, unless it is empty. -/
theorem firstId_append (xs ys : List (NodeId × Node)) :
    firstId (xs ++ ys) = (firstId xs).or (firstId ys) := by
  cases xs <;> simp

/-- Two lists end with what the second of them ends with, unless it is empty. -/
theorem lastId_append (xs ys : List (NodeId × Node)) :
    lastId (xs ++ ys) = (lastId ys).or (lastId xs) := by
  unfold lastId
  rw [List.getLast?_append]
  cases ys.getLast? <;> simp

/-- A node in front of a list changes its end only if the list is empty. -/
theorem lastId_cons (x : NodeId × Node) (xs : List (NodeId × Node)) :
    lastId (x :: xs) = (lastId xs).or (some x.1) := by
  rw [show x :: xs = [x] ++ xs from rfl, lastId_append]
  rfl

/-- What a list starts with is in the list. -/
theorem mem_of_firstId (h : firstId items = some id) : id ∈ items.map Prod.fst := by
  obtain ⟨x, hx, rfl⟩ := Option.map_eq_some_iff.mp h
  exact List.mem_map_of_mem (List.mem_of_head? hx)

/-- What a list ends with is in the list. -/
theorem mem_of_lastId (h : lastId items = some id) : id ∈ items.map Prod.fst := by
  obtain ⟨x, hx, rfl⟩ := Option.map_eq_some_iff.mp h
  exact List.mem_map_of_mem (List.mem_of_getLast? hx)

/-- Only the empty list does not end with anything. -/
theorem eq_nil_of_lastId (h : lastId items = none) : items = [] := by
  simpa [lastId] using h

/-- Only the empty list does not start with anything. -/
theorem eq_nil_of_firstId (h : firstId items = none) : items = [] := by
  simpa [firstId] using h

/-- A node stands first exactly if nothing is in front of it. -/
theorem firstId_append_eq_some_iff (hk : k ∉ before.map Prod.fst) :
    firstId (before ++ (k, node) :: after) = some k ↔ before = [] := by
  rw [firstId_append]
  constructor
  · intro h
    cases hb : firstId before with
    | none => exact eq_nil_of_firstId hb
    | some j =>
      rw [hb, Option.some_or, Option.some.injEq] at h
      exact absurd (mem_of_firstId (h ▸ hb)) hk
  · rintro rfl
    rfl

/-- A node stands last exactly if nothing is behind it. -/
theorem lastId_append_eq_some_iff (hk : k ∉ after.map Prod.fst) :
    lastId (before ++ (k, node) :: after) = some k ↔ after = [] := by
  rw [lastId_append, lastId_cons]
  constructor
  · intro h
    cases ha : lastId after with
    | none => exact eq_nil_of_lastId ha
    | some j =>
      simp only [ha, Option.some_or, Option.some.injEq] at h
      exact absurd (mem_of_lastId (h ▸ ha)) hk
  · rintro rfl
    rfl

/-- A place in a list that is cut in two lies behind the cut or in front of it. -/
theorem append_eq_append_cons {α : Type} {xs ys b a : List α} {y : α}
    (h : xs ++ ys = b ++ y :: a) :
    (∃ m, ys = m ++ y :: a ∧ b = xs ++ m) ∨ ∃ m, xs = b ++ y :: m ∧ a = m ++ ys := by
  rcases List.append_eq_append_iff.mp h with ⟨m, rfl, hm⟩ | ⟨m, rfl, hm⟩
  · exact .inl ⟨m, hm, rfl⟩
  · cases m with
    | nil => exact .inl ⟨[], hm.symm, by simp⟩
    | cons z m =>
      obtain ⟨rfl, rfl⟩ := List.cons.inj hm
      exact .inr ⟨m, rfl, rfl⟩

/-! ## Setting links -/

/-- Recording a place touches no node. -/
@[simp] theorem setPlace_nodes (p : Program) (node : Node) (place : Option NodeId) :
    (p.setPlace node place).nodes = p.nodes := by
  unfold setPlace
  split <;> try split
  all_goals rfl

/-- Recording a place leaves the start of the list. -/
@[simp] theorem setPlace_head (p : Program) (node : Node) (place : Option NodeId) :
    (p.setPlace node place).head = p.head := by
  unfold setPlace
  split <;> try split
  all_goals rfl

/-- Recording a place leaves the end of the list. -/
@[simp] theorem setPlace_tail (p : Program) (node : Node) (place : Option NodeId) :
    (p.setPlace node place).tail = p.tail := by
  unfold setPlace
  split <;> try split
  all_goals rfl

/-- Setting what follows a node changes the entry of that node only. -/
theorem get?_setNext (p : Program) (prev next : Option NodeId) (k : NodeId) :
    (p.setNext prev next).nodes.get? k =
      if prev = some k then (p.nodes.get? k).map fun e => { e with next }
      else p.nodes.get? k := by
  cases prev with
  | none => simp [setNext]
  | some id =>
    simp only [setNext, Arena.get?_modify, Option.some.injEq]
    by_cases h : k = id
    · simp [h]
    · simp [h, Ne.symm h]

/-- Setting what precedes a node changes the entry of that node only. -/
theorem get?_setPrev (p : Program) (next prev : Option NodeId) (k : NodeId) :
    (p.setPrev next prev).nodes.get? k =
      if next = some k then (p.nodes.get? k).map fun e => { e with prev }
      else p.nodes.get? k := by
  cases next with
  | none => simp [setPrev]
  | some id =>
    simp only [setPrev, Arena.get?_modify, Option.some.injEq]
    by_cases h : k = id
    · simp [h]
    · simp [h, Ne.symm h]

/-- The list starts with another node if what follows is set with nothing before it. -/
theorem setNext_head (p : Program) (prev next : Option NodeId) :
    (p.setNext prev next).head = if prev = none then next else p.head := by
  cases prev <;> simp [setNext]

/-- Setting what follows a node leaves the end of the list. -/
@[simp] theorem setNext_tail (p : Program) (prev next : Option NodeId) :
    (p.setNext prev next).tail = p.tail := by
  cases prev <;> rfl

/-- Setting what precedes a node leaves the start of the list. -/
@[simp] theorem setPrev_head (p : Program) (next prev : Option NodeId) :
    (p.setPrev next prev).head = p.head := by
  cases next <;> rfl

/-- The list ends with another node if what precedes is set with nothing behind it. -/
theorem setPrev_tail (p : Program) (next prev : Option NodeId) :
    (p.setPrev next prev).tail = if next = none then prev else p.tail := by
  cases next <;> simp [setPrev]

/-- Setting what follows a node leaves the mode. -/
@[simp] theorem setNext_mode (p : Program) (prev next : Option NodeId) :
    (p.setNext prev next).mode = p.mode := by
  cases prev <;> rfl

/-- Setting what precedes a node leaves the mode. -/
@[simp] theorem setPrev_mode (p : Program) (next prev : Option NodeId) :
    (p.setPrev next prev).mode = p.mode := by
  cases next <;> rfl

/-- Recording a place leaves the mode. -/
@[simp] theorem setPlace_mode (p : Program) (node : Node) (place : Option NodeId) :
    (p.setPlace node place).mode = p.mode := by
  unfold setPlace
  split <;> try split
  all_goals rfl

/-- The entry of a node after its neighbours are told about a change beside it. -/
theorem get?_relink (p : Program) (left right onward back : Option NodeId) (k : NodeId) :
    ((p.setNext left onward).setPrev right back).nodes.get? k =
      (p.nodes.get? k).map fun e =>
        { e with
          next := if left = some k then onward else e.next
          prev := if right = some k then back else e.prev } := by
  rw [get?_setPrev, get?_setNext]
  by_cases hl : left = some k <;> by_cases hr : right = some k <;> cases p.nodes.get? k <;>
    simp [hl, hr]

/-! ## Reading the list -/

/-- Walking on from any place of the list spells out the rest of it. -/
theorem Represents.walk_eq (h : p.Represents (before ++ after)) {fuel : Nat}
    (hf : after.length ≤ fuel) : walk p.nodes fuel (firstId after) = after := by
  induction after generalizing before fuel with
  | nil => cases fuel <;> rfl
  | cons x after ih =>
    obtain ⟨id, node⟩ := x
    cases fuel with
    | zero => simp at hf
    | succ fuel =>
      have hentry := h.entry before id node after rfl
      have hshift : p.Represents ((before ++ [(id, node)]) ++ after) := by simpa using h
      have hrest := ih hshift (Nat.le_of_succ_le_succ hf)
      simp only [firstId_cons, walk, hentry, hrest]

/-- A listed node has an entry. -/
theorem Represents.get?_of_mem (h : p.Represents items) (hm : (id, node) ∈ items) :
    ∃ entry, p.nodes.get? id = some entry ∧ entry.node = node := by
  obtain ⟨before, after, rfl⟩ := List.append_of_mem hm
  exact ⟨_, h.entry before id node after rfl, rfl⟩

/-- An id with an entry has its place in the list, and the entry says what is beside it. -/
theorem Represents.split (h : p.Represents items) {entry : Entry}
    (he : p.nodes.get? id = some entry) :
    ∃ before after, items = before ++ (id, entry.node) :: after ∧
      entry.prev = lastId before ∧ entry.next = firstId after := by
  obtain ⟨⟨i, node⟩, hm, rfl⟩ := List.mem_map.mp (h.listed id entry he)
  obtain ⟨before, after, rfl⟩ := List.append_of_mem hm
  have hentry := h.entry before i node after rfl
  rw [he, Option.some.injEq] at hentry
  subst hentry
  exact ⟨before, after, rfl, rfl, rfl⟩

/-- The sequence of a program is the list that its links spell out. -/
theorem Represents.toList_eq (h : p.Represents items) : p.toList = items := by
  have hlen : items.length ≤ p.nodes.capacity := by
    have hlive : ∀ id ∈ items.map Prod.fst, ∃ entry, p.nodes.get? id = some entry := by
      intro id hid
      obtain ⟨⟨i, node⟩, hm, rfl⟩ := List.mem_map.mp hid
      obtain ⟨entry, he, -⟩ := h.get?_of_mem hm
      exact ⟨entry, he⟩
    simpa using Arena.length_le_capacity h.nodup hlive
  have hfront : p.Represents ([] ++ items) := h
  rw [toList, h.head_eq]
  exact hfront.walk_eq hlen

/-- Ids lead to the nodes that are listed with them, and to no others. -/
theorem Represents.node?_eq_some_iff (h : p.Represents items) :
    p.node? id = some node ↔ (id, node) ∈ items := by
  constructor
  · intro hn
    obtain ⟨entry, he, rfl⟩ := Option.map_eq_some_iff.mp hn
    obtain ⟨before, after, rfl, -, -⟩ := h.split he
    simp
  · intro hm
    obtain ⟨entry, he, rfl⟩ := h.get?_of_mem hm
    simp [node?, he]

/-- The links of a listed node lead to what is next to it in the list. -/
theorem Represents.neighbours {items : List (NodeId × Node)} (h : p.Represents items)
    (hitems : items = before ++ (id, node) :: after) :
    p.node? id = some node ∧ p.next? id = firstId after ∧ p.prev? id = lastId before := by
  have hentry := h.entry before id node after hitems
  simp [node?, next?, prev?, hentry]

/-- The next node of one is the one whose previous node that is. -/
theorem Represents.next_iff_prev {items : List (NodeId × Node)} (h : p.Represents items) :
    p.next? id = some k ↔ p.prev? k = some id := by
  constructor
  · -- cut the list behind the node: what follows it is the head of the rest
    intro hnext
    obtain ⟨entry, he, hk⟩ := Option.bind_eq_some_iff.mp hnext
    obtain ⟨before, after, hitems, -, hfirst⟩ := h.split he
    rw [hk] at hfirst
    obtain ⟨⟨j, n⟩, hhead, rfl⟩ := Option.map_eq_some_iff.mp hfirst.symm
    obtain ⟨rest, rfl⟩ := List.head?_eq_some_iff.mp hhead
    have hsplit : items = (before ++ [(id, entry.node)]) ++ (j, n) :: rest := by
      simpa using hitems
    obtain ⟨-, -, hprev⟩ := h.neighbours hsplit
    rw [hprev]
    simp [lastId]
  · -- cut the list in front of the node: what precedes it is the last one there
    intro hprev
    obtain ⟨entry, he, hid⟩ := Option.bind_eq_some_iff.mp hprev
    obtain ⟨before, after, hitems, hlast, -⟩ := h.split he
    rw [hid] at hlast
    obtain ⟨⟨j, n⟩, hend, rfl⟩ := Option.map_eq_some_iff.mp hlast.symm
    obtain ⟨front, rfl⟩ := List.getLast?_eq_some_iff.mp hend
    have hsplit : items = front ++ (j, n) :: (k, entry.node) :: after := by simpa using hitems
    obtain ⟨-, hnext, -⟩ := h.neighbours hsplit
    exact hnext

/-- An id that is not listed has no entry. -/
theorem Represents.get?_eq_none {items : List (NodeId × Node)} (h : p.Represents items)
    (hid : id ∉ items.map Prod.fst) : p.nodes.get? id = none := by
  by_contra hne
  obtain ⟨entry, he⟩ := Option.ne_none_iff_exists'.mp hne
  exact hid (h.listed id entry he)

/-- The empty program represents the empty list. -/
theorem represents_empty (mode : Mode) : (empty mode).Represents [] where
  nodup := List.nodup_nil
  head_eq := rfl
  tail_eq := rfl
  entry := by simp
  listed := by simp [empty]

/-! ## Changing a stretch of the list -/

/-- The links spell out a list in which the stretch `old` is replaced by `new` if its neighbours
point at what is beside them now and the new entries point at theirs. -/
theorem Represents.splice {q : Program} (old new : List (NodeId × Node))
    (h : p.Represents (before ++ old ++ after))
    (hnodup : ((before ++ new ++ after).map Prod.fst).Nodup)
    (hhead : q.head = if lastId before = none then firstId (new ++ after) else p.head)
    (htail : q.tail = if firstId after = none then lastId (before ++ new) else p.tail)
    (hkeep : ∀ k ∈ (before ++ after).map Prod.fst, q.nodes.get? k = (p.nodes.get? k).map fun e =>
      { e with
        next := if lastId before = some k then firstId (new ++ after) else e.next
        prev := if firstId after = some k then lastId (before ++ new) else e.prev })
    (hnew : ∀ b id node a, new = b ++ (id, node) :: a →
      q.nodes.get? id = some ⟨node, lastId (before ++ b), firstId (a ++ after)⟩)
    (hlisted : ∀ k e, q.nodes.get? k = some e → k ∈ (before ++ new ++ after).map Prod.fst) :
    q.Represents (before ++ new ++ after) := by
  refine ⟨hnodup, ?_, ?_, ?_, hlisted⟩
  · rw [hhead, List.append_assoc, firstId_append]
    cases before with
    | nil => simp [firstId_append]
    | cons x xs =>
      -- the head changes only if nothing stands in front of the stretch
      have hl : lastId (x :: xs) ≠ none := fun hc => by cases eq_nil_of_lastId hc
      simp [hl, h.head_eq]
  · rw [htail, h.tail_eq, lastId_append (before ++ old), lastId_append (before ++ new)]
    cases hl : lastId after with
    | none => simp [eq_nil_of_lastId hl]
    | some k =>
      have hf : firstId after ≠ none := fun hc => by simp [eq_nil_of_firstId hc] at hl
      rw [if_neg hf]
      rfl
  · intro b k n a hsplit
    have hn := hnodup
    rw [hsplit] at hn
    simp only [List.map_append, List.map_cons, List.nodup_append, List.nodup_cons] at hn
    rw [List.append_assoc] at hsplit
    rcases append_eq_append_cons hsplit with ⟨m, hm, rfl⟩ | ⟨m, rfl, rfl⟩
    · rcases append_eq_append_cons hm with ⟨m, rfl, rfl⟩ | ⟨m, rfl, rfl⟩
      · -- a node behind the stretch
        have hl : lastId before ≠ some k := fun hc =>
          hn.2.2 k (by simp [mem_of_lastId hc]) k (by simp) rfl
        have hkm : k ∉ m.map Prod.fst := fun hc => hn.2.2 k (by simp [hc]) k (by simp) rfl
        rw [hkeep k (by simp), h.entry (before ++ old ++ m) k n a (by simp)]
        simp only [Option.map_some, if_neg hl, firstId_append_eq_some_iff hkm]
        cases hm' : lastId m with
        | none => simp [eq_nil_of_lastId hm']
        | some j =>
          have : m ≠ [] := fun hc => by simp [hc] at hm'
          simp [this, lastId_append, hm']
      · -- a node of the stretch
        exact hnew _ k n _ rfl
    · -- a node in front of the stretch
      have hf : firstId after ≠ some k := fun hc =>
        hn.2.1.1 (by simp [mem_of_firstId hc])
      have hkm : k ∉ m.map Prod.fst := fun hc => hn.2.1.1 (by simp [hc])
      rw [hkeep k (by simp), h.entry b k n (m ++ old ++ after) (by simp)]
      simp only [Option.map_some, if_neg hf, lastId_append_eq_some_iff hkm]
      cases hm' : firstId m with
      | none => simp [eq_nil_of_firstId hm']
      | some j =>
        have : m ≠ [] := fun hc => by simp [hc] at hm'
        simp [this, firstId_append, hm']

/-- What follows the last node of a front part is the first of the rest. -/
theorem Represents.follower_eq (h : p.Represents (before ++ after)) :
    p.follower (lastId before) = firstId after := by
  cases hb : lastId before with
  | none =>
    obtain rfl := eq_nil_of_lastId hb
    exact h.head_eq
  | some k =>
    obtain ⟨⟨i, node⟩, hx, rfl⟩ := Option.map_eq_some_iff.mp hb
    obtain ⟨front, rfl⟩ := List.getLast?_eq_some_iff.mp hx
    simp [follower, next?, h.entry front i node after (by simp)]

/-- Putting a new node between neighbours puts it between them in the list. -/
theorem Represents.insert (h : p.Represents (before ++ after)) {nodes : Arena Entry}
    (hfresh : p.nodes.get? id = none)
    (hget : ∀ k, nodes.get? k =
      if k = id then some ⟨node, lastId before, firstId after⟩ else p.nodes.get? k) :
    ((({ p with nodes }.setNext (lastId before) (some id)).setPrev (firstId after)
      (some id)).setPlace node (some id)).Represents (before ++ (id, node) :: after) := by
  have hid : id ∉ (before ++ after).map Prod.fst := by
    intro hmem
    obtain ⟨⟨i, n⟩, hm, hi⟩ := List.mem_map.mp hmem
    obtain ⟨entry, he, -⟩ := h.get?_of_mem hm
    rw [show i = id from hi, hfresh] at he
    cases he
  rw [List.map_append, List.mem_append, not_or] at hid
  rw [show before ++ (id, node) :: after = before ++ [(id, node)] ++ after by simp]
  have hold : p.Represents (before ++ [] ++ after) := by simpa using h
  refine hold.splice [] [(id, node)] ?_ ?_ ?_ ?_ ?_ ?_
  · rw [List.append_assoc]
    refine (List.perm_middle.map Prod.fst).nodup_iff.mpr (List.nodup_cons.mpr ⟨?_, h.nodup⟩)
    simpa using hid
  · rw [setPlace_head, setPrev_head, setNext_head]
    rfl
  · rw [setPlace_tail, setPrev_tail, setNext_tail, lastId_append]
    rfl
  · intro k hk
    have hne : k ≠ id := by
      rintro rfl
      simp_all
    rw [setPlace_nodes, get?_relink, hget, if_neg hne, lastId_append]
    rfl
  · intro b i n a hsplit
    obtain ⟨rfl, hx, rfl⟩ : b = [] ∧ (id, node) = (i, n) ∧ a = [] := by
      cases b <;> simp_all
    obtain ⟨rfl, rfl⟩ := Prod.mk.inj hx
    -- the new node is not its own neighbour
    have hl : lastId before ≠ some id := fun hc => hid.1 (mem_of_lastId hc)
    have hf : firstId after ≠ some id := fun hc => hid.2 (mem_of_firstId hc)
    simp [get?_relink, hget, hl, hf]
  · intro k e hk
    by_cases hc : k = id
    · simp [hc]
    · rw [setPlace_nodes, get?_relink, hget, if_neg hc] at hk
      obtain ⟨e', he', -⟩ := Option.map_eq_some_iff.mp hk
      have := h.listed k e' he'
      simp only [List.map_append, List.mem_append] at this ⊢
      exact this.imp_left .inl

/-- Taking a node out from between its neighbours takes it out of the list. -/
theorem Represents.erase (h : p.Represents (before ++ (id, node) :: after)) {nodes : Arena Entry}
    (hget : ∀ k, nodes.get? k = if k = id then none else p.nodes.get? k)
    (insertion : InsertionPoint) (place : Option NodeId) :
    ((({ p with nodes, insertion }.setNext (lastId before) (firstId after)).setPrev
      (firstId after) (lastId before)).setPlace node place).Represents (before ++ after) := by
  have hnodup := (List.perm_middle.map Prod.fst).nodup_iff.mp h.nodup
  obtain ⟨hid, hnodup⟩ := List.nodup_cons.mp hnodup
  have hold : p.Represents (before ++ [(id, node)] ++ after) := by simpa using h
  rw [show before ++ after = before ++ [] ++ after by simp]
  refine hold.splice [(id, node)] [] (by simpa using hnodup) ?_ ?_ ?_ (by simp) ?_
  · rw [setPlace_head, setPrev_head, setNext_head]
    rfl
  · rw [setPlace_tail, setPrev_tail, setNext_tail, List.append_nil]
  · intro k hk
    have hne : k ≠ id := fun hc => hid (hc ▸ hk)
    rw [setPlace_nodes, get?_relink, hget, if_neg hne, List.append_nil]
    rfl
  · -- an entry that is left was listed before and is not the one that was taken out
    intro k e hk
    have hne : k ≠ id := by
      rintro rfl
      simp [get?_relink, hget] at hk
    rw [setPlace_nodes, get?_relink, hget, if_neg hne] at hk
    obtain ⟨e', he', -⟩ := Option.map_eq_some_iff.mp hk
    have := h.listed k e' he'
    simp only [List.append_nil, List.map_append, List.mem_append, List.map_cons,
      List.mem_cons] at this ⊢
    exact this.imp_right fun h => h.resolve_left hne

end X86Asm.Program
