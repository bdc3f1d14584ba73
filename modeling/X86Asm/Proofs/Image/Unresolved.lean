import X86Asm.Proofs.Image.Totality

/-!
# Labels without a place

Assembling looks labels up in three places: in front, to check that they are bound, in the passes,
where an unknown label is no error, and when the nodes are turned into bytes. The first check finds
everything (`Assembler.assemble_unresolved_iff`). What is bound has an address in the layout that
relaxation settles in (`Program.exists_address`), so a label is never missing later on.
-/

namespace X86Asm

variable {p : Program} {base : UInt64} {limits : Limits} {previous : Option Layout}
  {layout : Layout} {bp : Blueprint} {place : Placement} {w : Walk} {node : Node} {mode : Mode}
  {instr : Instruction} {ctx : Context} {l l' : Label} {e : Error}

/-- Whether the error is that a label has no place. -/
def Error.isUnresolved : Error → Bool
  | .unresolvedLabel .. => true
  | _ => false

namespace Program

/-- The first label without a place among those that the nodes refer to, in the order of the
program and within a node in the order in which it names them. -/
inductive FirstUnbound (p : Program) (l : Label) : Prop
  | mk {before after : List Node} {node : Node} {front back : List Label} :
      p.nodeList = before ++ node :: after →
      (∀ n ∈ before, ∀ l ∈ n.references, p.isBound l = true) →
      node.references = front ++ l :: back →
      (∀ l ∈ front, p.isBound l = true) → p.isBound l = false → FirstUnbound p l

/-! ## The check in front -/

/-- What the check in front does with a label. -/
def checkLabel (p : Program) (l : Label) : Except Error Unit :=
  if p.isBound l then .ok () else .error (p.unresolved l)

/-- A label passes exactly if it is bound. -/
theorem checkLabel_eq_ok : p.checkLabel l = .ok () ↔ p.isBound l = true := by
  unfold checkLabel
  split <;> simp [*]

/-- A label that is not bound is unresolved. -/
theorem checkLabel_eq_error :
    p.checkLabel l = .error e ↔ p.isBound l = false ∧ e = p.unresolved l := by
  unfold checkLabel
  split <;> simp [*, eq_comm]

/-- The check in front goes through the labels that nodes refer to. -/
theorem checkBound_eq_forM (p : Program) :
    p.checkBound = p.nodeList.forM fun node => node.references.forM p.checkLabel :=
  forM_flatMap

/-- The check in front passes exactly if all labels that nodes refer to are bound. -/
theorem checkBound_eq_ok :
    p.checkBound = .ok () ↔ ∀ node ∈ p.nodeList, ∀ l ∈ node.references, p.isBound l = true := by
  simp only [checkBound_eq_forM, forM_eq_ok_iff, checkLabel_eq_ok]

/-- The check in front fails for the first label without a place. -/
theorem checkBound_eq_error :
    p.checkBound = .error e ↔ ∃ l, p.FirstUnbound l ∧ e = p.unresolved l := by
  rw [checkBound_eq_forM, forM_eq_error_iff]
  constructor
  · rintro ⟨before, node, after, hnodes, hbefore, hnode⟩
    obtain ⟨front, l, back, hreferences, hfront, hl⟩ := forM_eq_error_iff.mp hnode
    obtain ⟨hunbound, rfl⟩ := checkLabel_eq_error.mp hl
    simp only [forM_eq_ok_iff, checkLabel_eq_ok] at hbefore hfront
    exact ⟨l, ⟨hnodes, hbefore, hreferences, hfront, hunbound⟩, rfl⟩
  · rintro ⟨l, ⟨hnodes, hbefore, hreferences, hfront, hunbound⟩, rfl⟩
    simp only [← checkLabel_eq_ok (p := p)] at hbefore hfront
    have hl : p.checkLabel l = .error (p.unresolved l) := checkLabel_eq_error.mpr ⟨hunbound, rfl⟩
    refine ⟨_, _, _, hnodes, fun n hn => forM_eq_ok_iff.mpr (hbefore n hn), ?_⟩
    exact forM_eq_error_iff.mpr ⟨_, l, _, hreferences, hfront, hl⟩

/-- There is a first unbound label exactly if there is one at all. -/
theorem exists_firstUnbound_iff :
    (∃ l, p.FirstUnbound l) ↔ ∃ node ∈ p.nodeList, ∃ l ∈ node.references, p.isBound l = false := by
  constructor
  · rintro ⟨l, @⟨_, _, node, _, _, hnodes, -, hreferences, -, hunbound⟩⟩
    refine ⟨node, ?_, l, ?_, hunbound⟩
    · rw [hnodes]
      exact List.mem_append_right _ List.mem_cons_self
    · rw [hreferences]
      exact List.mem_append_right _ List.mem_cons_self
  · rintro ⟨node, hnode, l, hl, hunbound⟩
    cases hbound : p.checkBound with
    | ok _ =>
      have hl := checkBound_eq_ok.mp hbound node hnode l hl
      cases hl.symm.trans hunbound
    | error e =>
      obtain ⟨l, hfirst, -⟩ := checkBound_eq_error.mp hbound
      exact ⟨l, hfirst⟩

end Program

/-! ## Relaxation -/

/-- Why an instruction has no template is not that a label is unresolved. -/
theorem Refusal.toError_isUnresolved (r : Refusal) (m : Mnemonic) :
    (r.toError mode m).isUnresolved = false := by
  cases r <;> rfl

/-- An instruction may be refused, but not for a label that has an address, or that need not have
one. -/
theorem Instruction.encode_isUnresolved
    (hlabel : ctx.strict = true →
      ∀ l, instr.label? = some l → ∃ target, ctx.resolve l = some target)
    (h : instr.encode mode ctx = .error e) : e.isUnresolved = false := by
  unfold encode at h
  split at h
  · cases h
    exact Refusal.toError_isUnresolved ..
  · rename_i t ht
    cases hstrict : ctx.strict with
    | false =>
      obtain ⟨encoded, hencoded⟩ : ∃ encoded, t.fill mode ctx = .ok encoded :=
        Template.exists_fill hstrict t
      cases hencoded.symm.trans h
    | true =>
      obtain ⟨lead, field, hsettle, hfield⟩ := Template.fill_eq_error h
      have hl := (Instruction.label?_of_template ht).trans (Template.label?_of_settle hsettle)
      obtain ⟨target, htarget⟩ := hlabel hstrict _ hl
      rcases LabelField.fill_eq_error hfield with hnone | ⟨_, _, _, -, -, -, rfl⟩
      · cases htarget.symm.trans hnone
      · rfl

namespace Pass

variable {pass : Pass}

/-- Why a gap cannot be filled is not that a label is unresolved. -/
theorem gapExtent_isUnresolved {address : Nat} {alignment : UInt32}
    (h : gapExtent address alignment = .error e) : e.isUnresolved = false := by
  obtain rfl := gapExtent_eq_error h
  rfl

/-- A step of a pass goes on if the address of a label is not known. -/
theorem step_isUnresolved (h : pass.step w node = .error e) : e.isUnresolved = false := by
  rcases step_eq_error h with h | ⟨extent, -, h | h⟩
  · cases node with
    | instruction i =>
      rcases bind_eq_error_iff.mp h with h | ⟨encoded, -, h⟩
      · refine Instruction.encode_isUnresolved ?_ h
        exact nofun
      · cases h
    | sectionStart s => exact gapExtent_isUnresolved h
    | align alignment filler => exact gapExtent_isUnresolved h
    | _ => cases h
  · obtain ⟨hdiv, -⟩ := checkGrowth_error h
    cases e with
    | relaxationDiverged index previous current => rfl
    | _ => cases hdiv
  · unfold checkEnd at h
    split at h
    · cases h
      rfl
    · split at h <;> cases h
      rfl

end Pass

/-- Relaxation does not fail for an unresolved label. -/
theorem Program.relax_isUnresolved (h : (p.relax base limits).1 = .error e) :
    e.isUnresolved = false := by
  rcases relax_eq_error h with rfl | ⟨n, previous, -, -, hrun⟩
  · rfl
  · obtain ⟨w, node, hstep⟩ := Pass.exists_step_of_error hrun
    exact Pass.step_isUnresolved hstep

/-! ## Bytes -/

/-- What is bound has an address in the layout that relaxation settles in. -/
theorem Program.exists_address (hp : p.Valid) (hrelax : (p.relax base limits).1 = .ok layout)
    (hbound : p.isBound l = true) : ∃ target, layout.addresses.find? l = some target := by
  obtain ⟨n, previous, -, -, hrun, -⟩ := relax_eq_ok hrelax
  obtain ⟨walk, extent, harrival⟩ := Pass.exists_arrival hrun
  exact harrival.exists_address_of_isBound hp hbound

namespace Blueprint

/-- A label with an address resolves. -/
theorem resolve_ne_error (hl : ∃ target, bp.addresses.find? l = some target) :
    bp.resolve l ≠ .error e := by
  obtain ⟨target, htarget⟩ := hl
  rw [resolve_eq_ok.mpr htarget]
  exact nofun

/-- An instruction whose labels have addresses does not fail for an unresolved label. -/
theorem encode_isUnresolved (hctx : ctx.resolve = bp.addresses.find?)
    (hresolve : ∀ l ∈ (Node.instruction instr).references,
      ∃ target, bp.addresses.find? l = some target)
    (h : bp.encode instr ctx = .error e) : e.isUnresolved = false := by
  unfold Blueprint.encode at h
  cases hencode : instr.encode bp.program.mode ctx with
  | ok encoded =>
    rw [hencode] at h
    cases h
  | error e' =>
    have he' : e'.isUnresolved = false := by
      refine Instruction.encode_isUnresolved (fun _ l hl => ?_) hencode
      rw [hctx]
      exact hresolve l (by simp [Node.references, hl])
    rw [hencode] at h
    cases h
    cases e' with
    | unresolvedLabel id name => cases he'
    | _ => rfl

/-- If the labels that a node refers to have addresses, they are not missing when it is turned into
bytes, wherever it is. -/
theorem pieceOf_isUnresolved
    (hresolve : ∀ l ∈ node.references, ∃ target, bp.addresses.find? l = some target)
    (h : bp.pieceOf place node = .error e) : e.isUnresolved = false := by
  rcases pieceOf_eq_error h with ⟨i, rfl, hi⟩ | ⟨l, hmem, hl⟩ | ⟨l, size, target, rfl, -, -, rfl⟩
  · obtain ⟨near, hi⟩ := encodeAt_eq_error hi
    exact encode_isUnresolved rfl hresolve hi
  · exact absurd hl (resolve_ne_error (hresolve l hmem))
  · rfl

end Blueprint

namespace Program

/-- What the labels of a program do not cause once they have passed the check in front: no step of
a pass fails for a label, the labels that nodes refer to have addresses in the layout that
relaxation settles in, and no node fails for a label when it is turned into bytes. -/
structure NeverMissing (p : Program) (base : UInt64) (limits : Limits) : Prop where
  step : ∀ previous w node e, (p.pass base limits previous).step w node = .error e →
    e.isUnresolved = false
  address : ∀ layout, (p.relax base limits).1 = .ok layout → ∀ node ∈ p.nodeList,
    ∀ l ∈ node.references, ∃ target, layout.addresses.find? l = some target
  piece : ∀ layout, (p.relax base limits).1 = .ok layout → ∀ node ∈ p.nodeList, ∀ place e,
    Blueprint.pieceOf ⟨p, base, layout.addresses⟩ place node = .error e → e.isUnresolved = false

/-- Labels that pass the check in front are never missing behind it. -/
theorem neverMissing (hp : p.Valid) (hbound : p.checkBound = .ok ()) :
    p.NeverMissing base limits := by
  have haddress (layout : Layout) (hrelax : (p.relax base limits).1 = .ok layout) :
      ∀ node ∈ p.nodeList, ∀ l ∈ node.references,
        ∃ target, layout.addresses.find? l = some target :=
    fun node hnode l hl => exists_address hp hrelax (checkBound_eq_ok.mp hbound node hnode l hl)
  exact ⟨fun _ _ _ _ => Pass.step_isUnresolved, haddress, fun layout hrelax node hnode _ _ =>
    Blueprint.pieceOf_isUnresolved (haddress layout hrelax node hnode)⟩

/-- What fails behind the check in front does not fail for a label. -/
theorem checkBound_of_isUnresolved (hp : p.Valid) (h : (p.assemble base limits).1 = .error e)
    (he : e.isUnresolved = true) : p.checkBound = .error e := by
  rcases assemble_eq_error h with hbound | ⟨hbound, hrelax | ⟨layout, hrelax, hrender⟩⟩
  · exact hbound
  · cases he.symm.trans (relax_isUnresolved hrelax)
  · obtain ⟨n, previous, hrelaxing, -, hrun, -⟩ := relax_eq_ok hrelax
    obtain ⟨walk, extent, harrival⟩ := Pass.exists_arrival hrun
    obtain ⟨i, node, place, hn, -, hpiece, -⟩ := render_eq_error hrelaxing hp harrival hrender
    have hmissing := (neverMissing hp hbound).piece layout hrelax node (List.mem_of_getElem? hn)
      place e hpiece
    cases he.symm.trans hmissing

/-- What fails the check in front takes no pass. -/
theorem assemble_eq_error_of_checkBound (h : p.checkBound = .error e) :
    p.assemble base limits = (.error e, 0) := by
  unfold assemble
  rw [h]

end Program

/-- **Labels without a place.** An assembler fails for a label without a place exactly if some node
of a reachable program refers to one, whatever else there is to fail for, and it names the first.
Behind the check in front no label is missing. -/
theorem Assembler.assemble_unresolved_iff {a : Assembler} (hp : p.Reachable) :
    (∀ id name, (a.assemble p base).1 = .error (.unresolvedLabel id name) ↔
      ∃ l, p.FirstUnbound l ∧ l.id = id ∧ p.labelName? l = name) ∧
    ((∃ l, p.FirstUnbound l) ↔
      ∃ node ∈ p.nodeList, ∃ l ∈ node.references, p.isBound l = false) ∧
    (p.checkBound = .ok () → p.NeverMissing base a.limits) := by
  refine ⟨fun id name => ?_, Program.exists_firstUnbound_iff, Program.neverMissing hp.valid⟩
  rw [assemble_eq_error_iff]
  constructor
  · intro h
    obtain ⟨l, hfirst, he⟩ :=
      Program.checkBound_eq_error.mp (Program.checkBound_of_isUnresolved hp.valid h rfl)
    cases he
    exact ⟨l, hfirst, rfl, rfl⟩
  · rintro ⟨l, hfirst, rfl, rfl⟩
    rw [Program.assemble_eq_error_of_checkBound
      (Program.checkBound_eq_error.mpr ⟨l, hfirst, rfl⟩)]
    rfl

/-- The distance between two labels, of which only the first has a place, behind an instruction
without an encoding and in front of the address of a third label. -/
def Program.lostExit : Program :=
  [.createLabel, .createNamedLabel "exit", .createLabel, .emit (.label ⟨0⟩),
    .emit (.instruction ⟨.mov, []⟩), .emit (.difference ⟨0⟩ ⟨1⟩ .bits32),
    .emit (.address ⟨2⟩ 8)].foldl Operation.apply (Program.empty .long64)

/-- The unbound label is named. -/
theorem Assembler.unresolved_lostExit :
    Program.lostExit.Reachable ∧ (∃ l, Program.lostExit.FirstUnbound l ∧ l.id = 1) ∧
      (Assembler.assemble {} Program.lostExit 0x1000).1 =
        .error (.unresolvedLabel 1 (some "exit")) := by
  have hp : Program.lostExit.Reachable := by
    refine Program.reachable_foldl .long64 fun op hop => ?_
    simp only [List.mem_cons, List.not_mem_nil, or_false] at hop
    rcases hop with rfl | rfl | rfl | rfl | rfl | rfl | rfl <;> trivial
  have herror : (Assembler.assemble {} Program.lostExit 0x1000).1 =
      .error (.unresolvedLabel 1 (some "exit")) := by decide +kernel
  obtain ⟨l, hfirst, hid, -⟩ :=
    ((Assembler.assemble_unresolved_iff hp).1 1 (some "exit")).mp herror
  exact ⟨hp, ⟨l, hfirst, hid⟩, herror⟩

end X86Asm
