import X86Asm.Proofs.Program.Validity

/-!
# Reachable programs

A program is reachable if the operations of `X86Asm.Program.Edit` lead to it from an empty one, in
any order and whether or not they are refused. Every reachable program is valid
(`Reachable.valid`), so no two nodes have an id in common, a label is bound exactly by the one node
that places it, and alignments are powers of two.
-/

namespace X86Asm.Program

variable {p p' : Program} {before after : List (NodeId × Node)} {id position : NodeId} {node : Node}

/-- A call of one of the operations that change a program. -/
inductive Operation where
  | createLabel
  | createNamedLabel (name : String)
  | createSection (name : String) (flags : SectionFlags) (alignment : UInt32)
  | emit (node : Node)
  | emitAddress (l : Label)
  | insertAfter (position : NodeId) (node : Node)
  | insertBefore (position : NodeId) (node : Node)
  | setCursor (position : Option NodeId)
  | erase (id : NodeId)
  | clear

namespace Operation

/-- The program after a call, which may have been refused. -/
def apply (p : Program) : Operation → Program
  | createLabel => (Program.createLabel p).2
  | createNamedLabel name => (Program.createNamedLabel name p).2
  | createSection name flags alignment => (Program.createSection name flags alignment p).2
  | emit node => (Program.emit node p).2
  | emitAddress l => (Program.emitAddress l p).2
  | insertAfter position node => (Program.insertAfter position node p).2
  | insertBefore position node => (Program.insertBefore position node p).2
  | setCursor position => (Program.setCursor position p).2
  | erase id => (Program.erase id p).2
  | clear => p.clear

/-- The bytes that the call passes in are a payload that can be made. -/
def Made : Operation → Prop
  | emit node | insertAfter _ node | insertBefore _ node => node.Made
  | _ => True

end Operation

/-- The programs that operations lead to. -/
inductive Reachable : Program → Prop
  | empty (mode : Mode) : Reachable (Program.empty mode)
  | step {p : Program} {op : Operation} : Reachable p → op.Made → Reachable (op.apply p)

/-! ## The insertion point -/

/-- Linking a node behind a node keeps a program valid. -/
theorem Valid.link_state (h : p.Valid) (hlist : p.toList = before ++ after) (hnode : node.Made) :
    (Program.link (lastId before) node p).2.Valid := by
  rcases hl : Program.link (lastId before) node p with ⟨r, p'⟩
  cases r with
  | error e => exact link_eq_error hl ▸ h
  | ok id => exact (h.link hlist hnode hl).2

/-- Moving the insertion point behind the node that was linked keeps a program valid. -/
theorem Valid.moveBehind (h : p.Valid) (hlist : p.toList = before ++ after) (hnode : node.Made) :
    (Program.moveBehind (Program.link (lastId before) node p)).2.Valid := by
  rcases hl : Program.link (lastId before) node p with ⟨r, p'⟩
  cases r with
  | error e => exact link_eq_error hl ▸ h
  | ok id =>
    obtain ⟨hlist', h'⟩ := h.link hlist hnode hl
    refine h'.setInsertion fun k hk => ?_
    cases hk
    rw [hlist']
    simp

/-- A node that the arena holds is somewhere in the list, with its neighbours beside it. -/
theorem Valid.split (h : p.Valid) {entry : Entry} (he : p.nodes.get? position = some entry) :
    ∃ before after, p.toList = before ++ (position, entry.node) :: after ∧
      entry.prev = lastId before := by
  obtain ⟨before, after, hlist, hprev, -⟩ := h.represents.split he
  exact ⟨before, after, hlist, hprev⟩

/-- The arena holds the nodes of the list. -/
theorem Valid.contains_iff (h : p.Valid) :
    p.nodes.contains position = true ↔ position ∈ p.toList.map Prod.fst := by
  rw [Arena.contains_eq_true_iff]
  constructor
  · rintro ⟨entry, he⟩
    exact h.represents.listed position entry he
  · intro hmem
    obtain ⟨⟨_, n⟩, hm, rfl⟩ := List.mem_map.mp hmem
    obtain ⟨entry, he, -⟩ := h.represents.get?_of_mem hm
    exact ⟨entry, he⟩

/-- What is put behind a node goes in at a place of the list. -/
theorem Valid.split_after (h : p.Valid) (hc : p.nodes.contains position = true) :
    ∃ before after, p.toList = before ++ after ∧ lastId before = some position := by
  obtain ⟨entry, he⟩ := Arena.contains_eq_true_iff.mp hc
  obtain ⟨before, after, hlist, -⟩ := h.split he
  refine ⟨before ++ [(position, entry.node)], after, by simp [hlist], ?_⟩
  simp [lastId]

/-- Putting a node in behind another leaves the program valid. -/
theorem Valid.insertAfter (h : p.Valid) (hnode : node.Made) :
    (Program.insertAfter position node p).2.Valid := by
  unfold Program.insertAfter
  split
  · rename_i hc
    obtain ⟨before, after, hlist, hlast⟩ := h.split_after hc
    exact hlast ▸ h.link_state hlist hnode
  · exact h

/-- Putting a node in in front of another leaves the program valid. -/
theorem Valid.insertBefore (h : p.Valid) (hnode : node.Made) :
    (Program.insertBefore position node p).2.Valid := by
  unfold Program.insertBefore
  split
  · rename_i entry he
    obtain ⟨before, after, hlist, hprev⟩ := h.split he
    exact hprev ▸ h.link_state hlist hnode
  · exact h

/-- Putting a node in at the insertion point leaves the program valid. -/
theorem Valid.emit (h : p.Valid) (hnode : node.Made) : (Program.emit node p).2.Valid := by
  unfold Program.emit
  split
  · rw [h.represents.tail_eq]
    exact h.link_state (List.append_nil _).symm hnode
  · have hfront : p.toList = [] ++ p.toList := rfl
    exact h.moveBehind hfront hnode
  · unfold Program.insertAfter
    split
    · rename_i hc
      obtain ⟨before, after, hlist, hlast⟩ := h.split_after hc
      exact hlast ▸ h.moveBehind hlist hnode
    · exact h

/-- Moving the insertion point leaves the program valid. -/
theorem Valid.setCursor (h : p.Valid) (position : Option NodeId) :
    (Program.setCursor position p).2.Valid := by
  unfold Program.setCursor
  split
  · exact h.setInsertion fun k hk => by cases hk
  · rename_i id
    split
    · rename_i hc
      refine h.setInsertion fun k hk => ?_
      cases hk
      exact h.contains_iff.mp hc
    · exact h

/-- Clearing a program leaves what an empty program has, under other numbers. -/
theorem valid_clear (p : Program) : p.clear.Valid := by
  have hlabel : ∀ l, p.clear.label? l = none := by
    intro l
    simp [label?, labelIndex?, clear, empty]
  have hsection : ∀ s, p.clear.section? s = none := by
    intro s
    simp [section?, sectionIndex?, clear, empty]
  refine (valid_empty p.mode).of_same_list rfl rfl rfl ?_ ?_ ?_ ?_
  · intro m
    cases m <;> simp [place?, labelNode?, sectionNode?, hlabel, hsection] <;>
      simp [label?, labelIndex?, section?, sectionIndex?, empty]
  · intro m hm
    cases m <;> simp [knows, label?, labelIndex?, section?, sectionIndex?, empty] at hm
  · simp [hsection]
  · intro k hk
    cases hk

/-! ## Runs -/

/-- An operation keeps a program valid. -/
theorem Valid.apply (h : p.Valid) {op : Operation} (hop : op.Made) : (op.apply p).Valid := by
  cases op with
  | createLabel => exact h.pushLabel none
  | createNamedLabel name => exact h.createNamedLabel name
  | createSection name flags alignment => exact h.createSection name flags alignment
  | emit node => exact h.emit hop
  | emitAddress l => exact h.emit trivial
  | insertAfter position node => exact h.insertAfter hop
  | insertBefore position node => exact h.insertBefore hop
  | setCursor position => exact h.setCursor position
  | erase id =>
    rcases he : Program.erase id p with ⟨r, p'⟩
    show (Program.erase id p).2.Valid
    rw [he]
    cases r with
    | error e => exact erase_eq_error he ▸ h
    | ok node =>
      obtain ⟨-, -, -, -, -, h'⟩ := h.erase he
      exact h'
  | clear => exact valid_clear p

/-- Every program that operations lead to is valid, by induction on the operations. -/
theorem Reachable.valid (h : Reachable p) : p.Valid := by
  induction h with
  | empty mode => exact valid_empty mode
  | step _ hop ih => exact ih.apply hop

/-- What a list of operations makes of an empty program is reachable. -/
theorem reachable_foldl (mode : Mode) {ops : List Operation} (hops : ∀ op ∈ ops, op.Made) :
    Reachable (ops.foldl Operation.apply (Program.empty mode)) := by
  have hrun : ∀ ops : List Operation, (∀ op ∈ ops, op.Made) → ∀ p, Reachable p →
      Reachable (ops.foldl Operation.apply p) := by
    intro ops
    induction ops with
    | nil => exact fun _ _ hp => hp
    | cons op ops ih =>
      intro hops p hp
      exact ih (fun o ho => hops o (.tail _ ho)) _ (hp.step (hops op (.head _)))
  exact hrun ops hops _ (.empty mode)

end X86Asm.Program
