import X86Asm.Proofs.Encoding.Context
import X86Asm.Proofs.Image.Consistency
import X86Asm.Proofs.Program.Numbering

/-!
# Labels that nodes mention

A node is checked for the labels that it refers to before a program takes it. Of an instruction
these are not all that it mentions, but only the first. An instruction *strays* if its first label
is the program's and another is not, and that is the one way for a foreign label to come in
(`Valid.put_of_foreign`, `Valid.strays_of_mem`).

So a run mentions none but its own labels exactly if it puts no stray instructions in
(`encloses_run_iff`). Where one was put in, no image is made, because no form of any instruction has
two labels (`Valid.encloses_of_assemble`).
-/

namespace X86Asm

/-- The labels that the node mentions, in whatever place. -/
def Node.mentions : Node → List Label
  | instruction i => i.operands.filterMap Operand.label?
  | label l | address l _ => [l]
  | difference l relativeTo _ => [l, relativeTo]
  | sectionStart _ | data _ | align .. => []

namespace Program

variable {p p' : Program} {op : Operation} {ops : List Operation} {mode : Mode} {node : Node}
  {i : Instruction} {l : Label} {spot : Spot} {n : Nat}

/-- The node mentions a label that the program has not. -/
def Foreign (p : Program) (node : Node) : Prop := ∃ l ∈ node.mentions, p.ownsLabel l = false

/-- The node is an instruction whose first label is the program's, though it mentions a label that
is not. -/
def Strays (p : Program) (node : Node) : Prop :=
  ∃ i first, node = .instruction i ∧ i.label? = some first ∧ p.ownsLabel first ∧ p.Foreign node

/-- The nodes mention none but the program's labels. -/
def Encloses (p : Program) : Prop := ∀ node ∈ p.nodeList, ∀ l ∈ node.mentions, p.ownsLabel l

/-- An instruction that strays mentions a label that is not the program's. -/
theorem Strays.foreign (h : p.Strays node) : p.Foreign node := by
  obtain ⟨i, first, -, -, -, hforeign⟩ := h
  exact hforeign

/-- The nodes mention none but the program's labels exactly if none of them is foreign. -/
theorem encloses_iff : p.Encloses ↔ ∀ node ∈ p.nodeList, ¬ p.Foreign node := by
  simp only [Encloses, Foreign, not_exists, not_and, Bool.not_eq_false]

/-- Which nodes are foreign depends on the numbers of the labels only. -/
theorem foreign_congr (hlabels : p'.numbers .labels = p.numbers .labels) :
    p'.Foreign node ↔ p.Foreign node := by
  have howns (l : Label) : p'.ownsLabel l = p.ownsLabel l := by
    rw [Bool.eq_iff_iff, ownsLabel_iff, ownsLabel_iff, hlabels]
  simp only [Foreign, howns]

/-- Which instructions stray depends on the numbers of the labels only. -/
theorem strays_congr (hlabels : p'.numbers .labels = p.numbers .labels) :
    p'.Strays node ↔ p.Strays node := by
  have howns (l : Label) : p'.ownsLabel l = p.ownsLabel l := by
    rw [Bool.eq_iff_iff, ownsLabel_iff, ownsLabel_iff, hlabels]
  simp only [Strays, foreign_congr hlabels, howns]

/-! ## Putting a node in -/

/-- An instruction that mentions a label has a first one. -/
theorem exists_label?_of_mem (hl : l ∈ i.operands.filterMap Operand.label?) :
    ∃ first, i.label? = some first := by
  obtain ⟨operand, hmem, hlabel⟩ := List.mem_filterMap.mp hl
  refine Option.isSome_iff_exists.mp ?_
  rw [Instruction.label?, List.findSome?_isSome_iff]
  exact ⟨operand, hmem, by rw [hlabel]; rfl⟩

/-- The first label of an instruction is among those that it mentions. -/
theorem mem_mentions_of_label? (hi : i.label? = some l) :
    l ∈ i.operands.filterMap Operand.label? := by
  obtain ⟨operand, hmem, hlabel⟩ := List.exists_of_findSome?_eq_some hi
  exact List.mem_filterMap.mpr ⟨operand, hmem, hlabel⟩

/-- What a node refers to it mentions. -/
theorem mem_mentions_of_mem_references (hl : l ∈ node.references) : l ∈ node.mentions := by
  cases node with
  | instruction i => exact mem_mentions_of_label? (Option.mem_toList.mp hl)
  | address k size => exact hl
  | difference k relativeTo width => exact hl
  | _ => cases hl

/-- A node that mentions a foreign label is a stray instruction, or it refers to such a label or
places it. -/
theorem foreign_cases (h : p.Foreign node) : p.Strays node ∨
    (∃ l ∈ node.references, p.ownsLabel l = false) ∨
      ∃ l, node = .label l ∧ p.ownsLabel l = false := by
  have hforeign := h
  obtain ⟨l, hl, howns⟩ := h
  cases node with
  | instruction i =>
    obtain ⟨first, hfirst⟩ := exists_label?_of_mem hl
    by_cases howned : p.ownsLabel first
    · exact .inl ⟨i, first, rfl, hfirst, howned, hforeign⟩
    · refine .inr (.inl ⟨first, ?_, Bool.eq_false_iff.mpr howned⟩)
      rw [Node.references, hfirst]
      exact List.mem_singleton_self first
  | label k =>
    obtain rfl := List.mem_singleton.mp hl
    exact .inr (.inr ⟨l, rfl, howns⟩)
  | address k size => exact .inr (.inl ⟨l, hl, howns⟩)
  | difference k relativeTo width => exact .inr (.inl ⟨l, hl, howns⟩)
  | _ => cases hl

/-- A label that is not the program's has no entry. -/
theorem label?_eq_none_of_not_owns (h : p.ownsLabel l = false) : p.label? l = none := by
  rw [ownsLabel_eq] at h
  exact Option.isNone_iff_eq_none.mp (Option.isSome_eq_false_iff.mp h)

/-- A node that mentions a foreign label does not pass the check, unless it is a stray
instruction. -/
theorem check_of_foreign (hforeign : p.Foreign node) (hstrays : ¬ p.Strays node) :
    ∃ k ∈ node.mentions, p.ownsLabel k = false ∧ p.check node = .error (.invalidLabel k.id) := by
  rcases foreign_cases hforeign with hstrays' | ⟨l, href, howns⟩ | ⟨l, rfl, howns⟩
  · exact absurd hstrays' hstrays
  · obtain ⟨k, hk, hrefused⟩ := check_of_reference howns href
    exact ⟨k, mem_mentions_of_mem_references hk, hrefused⟩
  · refine ⟨l, List.mem_singleton_self l, howns, ?_⟩
    show p.checkContent (.label l) = _
    simp only [checkContent, label?_eq_none_of_not_owns howns]

/-- A stray instruction passes the check. -/
theorem check_of_strays (h : p.Strays node) : p.check node = .ok () := by
  obtain ⟨i, first, rfl, hfirst, howned, -⟩ := h
  have hreferences : p.checkReferences (.instruction i) = .ok () := by
    refine forM_eq_ok_iff.mpr fun l hl => ?_
    rw [Node.references, hfirst] at hl
    obtain rfl := List.mem_singleton.mp hl
    rw [if_pos howned]
  unfold check
  rw [hreferences]
  rfl

/-- Wherever a node that mentions a foreign label is put in, it is refused for such a label, unless
it is a stray instruction. Such a one is not refused for any label. -/
theorem Valid.put_of_foreign (h : p.Valid) (hopen : spot.Open p) (hforeign : p.Foreign node) :
    (¬ p.Strays node → ∃ k ∈ node.mentions, p.ownsLabel k = false ∧
      spot.put node p = (.error (.invalidLabel k.id), p)) ∧
    (p.Strays node → (∃ id, (spot.put node p).1 = .ok id) ∨
      spot.put node p = (.error (.handlesExhausted "nodes"), p)) := by
  constructor
  · intro hstrays
    obtain ⟨k, hk, howns, hcheck⟩ := check_of_foreign hforeign hstrays
    exact ⟨k, hk, howns, h.put_of_check_error hopen hcheck⟩
  · intro hstrays
    obtain ⟨prev, hlink⟩ := h.exists_link hopen
    have hput := (hlink node).1
    rw [link_fst_of_check (check_of_strays hstrays)] at hput
    cases hins : p.nodes.insert ⟨node, prev, p.follower prev⟩ with
    | ok slot =>
      rw [hins] at hput
      exact .inl ⟨slot.1, hput⟩
    | error e =>
      rw [hins] at hput
      obtain ⟨rfl, -⟩ := Arena.insert_eq_error hins
      exact .inr (Prod.ext hput (put_eq_error (Prod.ext hput rfl)))

/-- What the list holds of foreign labels it holds in stray instructions. -/
theorem Valid.strays_of_mem (h : p.Valid) (hnode : node ∈ p.nodeList)
    (hforeign : p.Foreign node) : p.Strays node := by
  obtain ⟨⟨id, node⟩, hlisted, rfl⟩ := List.mem_map.mp hnode
  have hadmits := h.admits id node hlisted
  rcases foreign_cases hforeign with hstrays | ⟨l, href, howns⟩ | ⟨l, rfl, howns⟩
  · exact hstrays
  · have hknown := hadmits.references l href
    rw [label?_eq_none_of_not_owns howns] at hknown
    cases hknown
  · have hknown := hadmits.known rfl
    rw [knows, label?_eq_none_of_not_owns howns] at hknown
    cases hknown

/-! ## Assembling -/

/-- An instruction that can be encoded mentions no label but its first. -/
theorem eq_label?_of_mem {ctx : Context} {e : Encoded} (h : i.encode mode ctx = .ok e)
    (hl : l ∈ i.operands.filterMap Operand.label?) : i.label? = some l := by
  obtain ⟨t, ht, -⟩ := Instruction.encode_eq_ok h
  rw [(Instruction.shape_template ht).labels_eq, ← Instruction.label?_of_template ht] at hl
  exact Option.mem_toList.mp hl

/-- A program of which an image is made mentions none but its own labels. -/
theorem Valid.encloses_of_assemble (h : p.Valid) {base : UInt64} {limits : Limits} {image : Image}
    {passes : Nat} (himage : p.assemble base limits = (.ok image, passes)) : p.Encloses := by
  rw [encloses_iff]
  intro node hnode hforeign
  obtain ⟨i, first, rfl, hfirst, howned, l, hl, howns⟩ := h.strays_of_mem hnode hforeign
  obtain ⟨chunks, address, hassembles⟩ := assembles_of_ok h himage
  obtain ⟨k, hk⟩ := List.mem_iff_getElem?.mp hnode
  have hlt : k < chunks.length := by
    rw [hassembles.length_eq]
    exact (List.getElem?_eq_some_iff.mp hk).1
  obtain ⟨near, e, -, hencode⟩ := hassembles.renders k _ _ hk (List.getElem?_eq_getElem hlt)
  have hsame := Option.some.inj (hfirst.symm.trans (eq_label?_of_mem hencode hl))
  rw [hsame, howns] at howned
  cases howned

/-! ## Runs -/

/-- The node that a call puts in. -/
def Operation.put? (mode : Mode) : Operation → Option Node
  | insertAfter _ node | insertBefore _ node => some node
  | op => op.emitted? mode

/-- A node that is emitted is put in. -/
theorem Operation.put?_of_emitted? (h : op.emitted? mode = some node) :
    op.put? mode = some node := by
  cases op with
  | insertAfter position other => cases h
  | insertBefore position other => cases h
  | _ => exact h

/-- What puts a node in creates nothing. -/
theorem Operation.not_creates_of_put? (h : op.put? mode = some node) :
    op.creates = false ∧ op ≠ .clear := by
  cases op with
  | emit other => exact ⟨rfl, nofun⟩
  | emitAddress l => exact ⟨rfl, nofun⟩
  | insertAfter position other => exact ⟨rfl, nofun⟩
  | insertBefore position other => exact ⟨rfl, nofun⟩
  | _ => cases h

namespace Listing

variable {s s' : Listing} {answer : Except Error Operation.Answer} {id : NodeId}

/-- A node of the list was there before, or the call puts it in. -/
theorem Step.mem_items (h : s.Step mode s' op answer) (hmem : (id, node) ∈ s'.items) :
    (id, node) ∈ s.items ∧ op ≠ .clear ∨
      op.put? mode = some node ∧ answer = .ok (.added id) := by
  cases h with
  | emit hop hcut hitems hpoint =>
    rw [hitems, List.mem_append, List.mem_cons] at hmem
    -- in front of the cut, the new node, and behind the cut
    rcases hmem with hmem | hnew | hmem
    · refine .inl ⟨hcut.1 ▸ List.mem_append_left _ hmem, ?_⟩
      rintro rfl
      cases hop
    · cases hnew
      exact .inr ⟨Operation.put?_of_emitted? hop, rfl⟩
    · refine .inl ⟨hcut.1 ▸ List.mem_append_right _ hmem, ?_⟩
      rintro rfl
      cases hop
  | insertAfter hitems hitems' hpoint =>
    rw [hitems', List.mem_append, List.mem_cons, List.mem_cons] at hmem
    rw [hitems, List.mem_append, List.mem_cons]
    rcases hmem with hmem | hposition | hnew | hmem
    · exact .inl ⟨.inl hmem, nofun⟩
    · exact .inl ⟨.inr (.inl hposition), nofun⟩
    · cases hnew
      exact .inr ⟨rfl, rfl⟩
    · exact .inl ⟨.inr (.inr hmem), nofun⟩
  | insertBefore hitems hitems' hpoint =>
    rw [hitems', List.mem_append, List.mem_cons, List.mem_cons] at hmem
    rw [hitems, List.mem_append, List.mem_cons]
    rcases hmem with hmem | hnew | hposition | hmem
    · exact .inl ⟨.inl hmem, nofun⟩
    · cases hnew
      exact .inr ⟨rfl, rfl⟩
    · exact .inl ⟨.inr (.inl hposition), nofun⟩
    · exact .inl ⟨.inr (.inr hmem), nofun⟩
  | erase hitems hitems' hpoint =>
    rw [hitems', List.mem_append] at hmem
    rw [hitems, List.mem_append, List.mem_cons]
    exact .inl ⟨hmem.imp_right .inr, nofun⟩
  | setCursor hlisted hitems hpoint => exact .inl ⟨hitems ▸ hmem, nofun⟩
  | clear hitems hpoint =>
    rw [hitems] at hmem
    cases hmem
  | create hcreates hsame =>
    refine .inl ⟨hsame ▸ hmem, ?_⟩
    rintro rfl
    cases hcreates
  | unlisted htarget hnot hsame =>
    refine .inl ⟨hsame ▸ hmem, ?_⟩
    rintro rfl
    cases htarget
  | refused hadds hlisted hsame =>
    refine .inl ⟨hsame ▸ hmem, ?_⟩
    rintro rfl
    cases hadds

/-- A node that is put in is in the list. -/
theorem Step.mem_of_put? (h : s.Step mode s' op (.ok (.added id)))
    (hput : op.put? mode = some node) : (id, node) ∈ s'.items := by
  cases h with
  | emit hop hcut hitems hpoint =>
    obtain rfl := Option.some.inj (hput.symm.trans (Operation.put?_of_emitted? hop))
    rw [hitems]
    exact List.mem_append_right _ List.mem_cons_self
  | insertAfter hitems hitems' hpoint =>
    cases hput
    rw [hitems']
    exact List.mem_append_right _ (List.mem_cons_of_mem _ List.mem_cons_self)
  | insertBefore hitems hitems' hpoint =>
    cases hput
    rw [hitems']
    exact List.mem_append_right _ List.mem_cons_self
  | create hcreates hsame =>
    rw [(Operation.not_creates_of_put? hput).1] at hcreates
    cases hcreates

end Listing

/-- What a call that puts a node in returns if it is not refused. -/
theorem Operation.exists_added_of_isOk (hput : op.put? mode = some node)
    (hok : (op.answer p).isOk = true) : ∃ id, op.answer p = .ok (.added id) := by
  have hmap (x : Except Error NodeId) (hok : (Answer.added <$> x).isOk = true) :
      ∃ id, Answer.added <$> x = .ok (.added id) := by
    cases x with
    | error e => cases hok
    | ok id => exact ⟨id, rfl⟩
  cases op with
  | emit other => exact hmap _ hok
  | emitAddress l => exact hmap _ hok
  | insertAfter position other => exact hmap _ hok
  | insertBefore position other => exact hmap _ hok
  | _ => cases hput

/-- A call leaves the nodes without foreign labels exactly if it does not put a stray instruction
in. -/
theorem Valid.encloses_apply_iff (h : p.Valid) (hop : op.Made) (hencloses : p.Encloses) :
    (op.apply p).Encloses ↔
      ∀ node, op.put? p.mode = some node → p.Strays node → (op.answer p).isOk = false := by
  have h' := h.apply hop
  have hstep := step_apply h hop h'
  have hlabels {node : Node} (hput : op.put? p.mode = some node) :
      (op.apply p).numbers .labels = p.numbers .labels := by
    obtain ⟨hcreates, hclear⟩ := Operation.not_creates_of_put? hput
    exact numbers_of_naming (op.naming_apply hcreates hclear p) .labels
  rw [encloses_iff] at hencloses ⊢
  constructor
  · intro hnext node hput hstrays
    by_contra hok
    obtain ⟨id, hadded⟩ := Operation.exists_added_of_isOk hput (Bool.eq_true_of_not_eq_false hok)
    rw [hadded] at hstep
    refine hnext node ?_ ((foreign_congr (hlabels hput)).mpr hstrays.foreign)
    exact List.mem_map.mpr ⟨_, hstep.mem_of_put? hput, rfl⟩
  · intro hrefused node hnode hforeign
    obtain ⟨⟨id, node⟩, hlisted, rfl⟩ := List.mem_map.mp hnode
    rcases hstep.mem_items hlisted with ⟨hlisted, hclear⟩ | ⟨hput, hadded⟩
    · -- the labels of the program stay its own
      obtain ⟨l, hl, howns⟩ := hforeign
      refine hencloses node (List.mem_map.mpr ⟨_, hlisted, rfl⟩) ⟨l, hl, ?_⟩
      by_contra howned
      have hkept := (step_numbers .labels op p).owns hclear
        (ownsLabel_iff.mp (Bool.eq_true_of_not_eq_false howned))
      rw [ownsLabel_iff.mpr hkept] at howns
      cases howns
    · have hstrays := (strays_congr (hlabels hput)).mp (h'.strays_of_mem hnode hforeign)
      have hfalse := hrefused node hput hstrays
      rw [hadded] at hfalse
      cases hfalse

/-- How foreign labels are kept out after the first calls of a run. -/
structure KeepsOut (mode : Mode) (ops : List Operation) (n : Nat) : Prop where
  /-- The program's labels are those that it issued since it was last cleared. -/
  ownsLabel_iff : ∀ l : Label, (run mode ops n).ownsLabel l ↔
    ∃ op, IssuedBy .labels mode ops n l.id op
  /-- A node that mentions a foreign label is refused for such a label. -/
  refuses : ∀ (spot : Spot) (node : Node), spot.Open (run mode ops n) →
    (run mode ops n).Foreign node → ¬ (run mode ops n).Strays node →
      ∃ k ∈ node.mentions, (run mode ops n).ownsLabel k = false ∧
        spot.put node (run mode ops n) = (.error (.invalidLabel k.id), run mode ops n)
  /-- A stray instruction is taken if there is a slot for it. -/
  takes : ∀ (spot : Spot) (node : Node), spot.Open (run mode ops n) →
    (run mode ops n).Strays node → (∃ id, (spot.put node (run mode ops n)).1 = .ok id) ∨
      spot.put node (run mode ops n) = (.error (.handlesExhausted "nodes"), run mode ops n)
  /-- Only stray instructions have brought foreign labels in. -/
  strays : ∀ node ∈ (run mode ops n).nodeList, (run mode ops n).Foreign node →
    (run mode ops n).Strays node
  /-- With foreign labels no image is made. -/
  assembled : ∀ (base : UInt64) (limits : Limits) (image : Image) (passes : Nat),
    (run mode ops n).assemble base limits = (.ok image, passes) → (run mode ops n).Encloses

/-- **Foreign labels.** A node that mentions a label which was not issued since the program was last
cleared is refused wherever it is put in, unless it is an instruction whose first label was. So the
nodes mention none but the program's labels all along a run exactly if no instruction is taken of
which that holds and which has a foreign label behind. -/
theorem encloses_run_iff (mode : Mode) {ops : List Operation} (hops : ∀ op ∈ ops, op.Made) :
    (∀ n ≤ ops.length, KeepsOut mode ops n) ∧
      ((∀ n ≤ ops.length, (run mode ops n).Encloses) ↔
        ∀ n op node, ops[n]? = some op → op.put? mode = some node →
          (run mode ops n).Strays node → (op.answer (run mode ops n)).isOk = false) := by
  have hnext (n : Nat) (op : Operation) (hop : ops[n]? = some op)
      (hencloses : (run mode ops n).Encloses) : (run mode ops (n + 1)).Encloses ↔
        ∀ node, op.put? mode = some node → (run mode ops n).Strays node →
          (op.answer (run mode ops n)).isOk = false := by
    have hmade := hops op (List.mem_of_getElem? hop)
    have happly := (valid_run mode hops n).encloses_apply_iff hmade hencloses
    rwa [run_mode, ← run_succ mode hop] at happly
  refine ⟨fun n hn => ?_, fun hencloses n op node hop => ?_, fun hrefused n => ?_⟩
  · have hv := valid_run mode hops n
    exact {
      ownsLabel_iff := fun l => Program.ownsLabel_iff.trans (owns_iff_issuedBy hn)
      refuses := fun spot node hopen hforeign => (hv.put_of_foreign hopen hforeign).1
      takes := fun spot node hopen hstrays => (hv.put_of_foreign hopen hstrays.foreign).2 hstrays
      strays := fun node => hv.strays_of_mem
      assembled := fun base limits image passes => hv.encloses_of_assemble }
  · have hn : n < ops.length := (List.getElem?_eq_some_iff.mp hop).1
    exact (hnext n op hop (hencloses n (Nat.le_of_lt hn))).mp (hencloses (n + 1) hn) node
  · -- by induction on the calls, each of which keeps foreign labels out unless it takes a stray
    induction n with
    | zero =>
      intro hn node hnode
      cases hnode
    | succ n ih =>
      intro hn
      have hop := List.getElem?_eq_getElem hn
      exact (hnext n _ hop (ih (Nat.le_of_lt hn))).mpr fun node => hrefused n _ node hop

/-- The comparison of two places, of which the second is that of a label that was never issued. -/
def strayComparison : Node :=
  .instruction ⟨.alu .cmp, [.memory (.ofLabel ⟨0⟩), .memory (.ofLabel ⟨7⟩)]⟩

/-- A label, and an instruction that mentions it and another. -/
def strayRun : List Operation := [.createLabel, .emit strayComparison]

/-- The operations of the run can be made. -/
theorem made_strayRun : ∀ op ∈ strayRun, op.Made := by
  intro op hop
  simp only [strayRun, List.mem_cons, List.not_mem_nil, or_false] at hop
  rcases hop with rfl | rfl <;> trivial

/-- A jump to a foreign label is refused, and the comparison is taken. -/
theorem keepsOut_strayRun :
    (∀ op ∈ strayRun, op.Made) ∧
      Spot.insertionPoint.put (.instruction ⟨.jmp, [.label ⟨7⟩]⟩) (run .long64 strayRun 1) =
        (.error (.invalidLabel 7), run .long64 strayRun 1) ∧
      ¬ ∀ n ≤ 2, (run .long64 strayRun n).Encloses := by
  obtain ⟨hkeeps, hencloses⟩ := encloses_run_iff .long64 made_strayRun
  have hforeign : (run .long64 strayRun 1).ownsLabel ⟨7⟩ = false := by decide +kernel
  refine ⟨made_strayRun, ?_, fun hall => ?_⟩
  · obtain ⟨k, hk, -, hput⟩ := (hkeeps 1 (by decide)).refuses .insertionPoint
      (.instruction ⟨.jmp, [.label ⟨7⟩]⟩) trivial ⟨⟨7⟩, List.mem_singleton_self _, hforeign⟩ (by
        rintro ⟨i, first, hi, hfirst, howns, -⟩
        cases hi
        cases hfirst
        rw [hforeign] at howns
        cases howns)
    obtain rfl := List.mem_singleton.mp hk
    exact hput
  · have hrefused := hencloses.mp hall 1 (.emit strayComparison) strayComparison rfl rfl
      ⟨_, ⟨0⟩, rfl, rfl, by decide +kernel, ⟨7⟩, by decide, hforeign⟩
    exact absurd hrefused (by decide +kernel)

/-- The foreign label is in the program then. -/
theorem foreign_strayRun :
    (Operation.emit strayComparison).answer (run .long64 strayRun 1) = .ok (.added ⟨0, 0⟩) ∧
      ∃ node ∈ (run .long64 strayRun 2).nodeList, ∃ l ∈ node.mentions,
        ¬ ∃ op, IssuedBy .labels .long64 strayRun 2 l.id op := by
  refine ⟨by decide +kernel, strayComparison, by decide +kernel, ⟨7⟩, by decide +kernel, ?_⟩
  rw [← owns_iff_issuedBy (by decide), ← ownsLabel_iff]
  decide +kernel

end Program

end X86Asm
