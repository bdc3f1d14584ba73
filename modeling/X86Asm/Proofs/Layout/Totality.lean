import X86Asm.Proofs.Layout.Settling

/-!
# Relaxation succeeds

A pass fails at a node that cannot be encoded, at one that gets longer, or at one that ends too
late. If every instruction has an encoding, and if there is room below the base and above it, none
of these happens (`Relaxing.exists_run`), and as passes settle in time, relaxation succeeds
(`exists_settled`).
-/

namespace X86Asm

variable {p : Program} {base : UInt64} {limits : Limits} {previous : Option Layout} {node : Node}
  {n : Nat}

/-- The labels that nodes refer to are bound, and every instruction has an encoding in some context
that accepts all labels and values. -/
structure Program.Complete (p : Program) : Prop where
  bound : ∀ node ∈ p.nodeList, ∀ l ∈ node.references, p.isBound l
  encodable : ∀ instr, .instruction instr ∈ p.nodeList →
    ∃ ctx encoded, ctx.strict = false ∧ instr.encode p.mode ctx = .ok encoded

/-- The limits allow as many passes and bytes as a program could need. -/
structure Limits.Allow (limits : Limits) (p : Program) : Prop where
  passes : p.jumps + 2 ≤ limits.maxPasses.toNat
  bytes : p.widest + p.capacity ≤ limits.maxOutputBytes.toNat

/-- Every instruction of a complete program has a template. -/
theorem Program.Complete.exists_template (hcomplete : p.Complete) {instr : Instruction}
    (hinstr : .instruction instr ∈ p.nodeList) : ∃ t, instr.template p.mode = .ok t := by
  obtain ⟨ctx, encoded, -, hencoded⟩ := hcomplete.encodable instr hinstr
  obtain ⟨t, ht, -⟩ := Instruction.encode_eq_ok hencoded
  exact ⟨t, ht⟩

namespace Pass

/-- A gap can be filled where the address space has room for it. -/
theorem exists_gapExtent {address : Nat} {alignment : UInt32}
    (hroom : address + (alignment.toNat - 1) < addressSpace) :
    ∃ e, gapExtent address alignment = .ok e := by
  have hlt := Nat.lt_of_le_of_lt (roundUp_le_add address alignment.toNat) hroom
  exact ⟨_, bind_eq_ok_iff.mpr ⟨_, alignUp_eq_ok_iff.mpr ⟨rfl, hlt⟩, rfl⟩⟩

/-- A node has an extent if there is an encoding for it, or room if it is a gap. -/
theorem exists_extent (hcomplete : p.Complete) (hmem : node ∈ p.nodeList) {w : Walk}
    (hroom : w.address + p.gapCapacity node < addressSpace) :
    ∃ e, (p.pass base limits previous).extent w node = .ok e := by
  cases hg : p.gap? node with
  | some alignment =>
    rw [Program.gapCapacity, hg, Option.elim_some] at hroom
    obtain ⟨e, he⟩ := exists_gapExtent hroom
    exact ⟨e, (extent_of_gap hg w).trans he⟩
  | none =>
    cases node with
    | instruction instr =>
      obtain ⟨t, ht⟩ := hcomplete.exists_template hmem
      obtain ⟨encoded, hencoded⟩ : ∃ encoded, instr.encode p.mode
          ((p.pass base limits previous).context w) = .ok encoded := by
        unfold Instruction.encode
        rw [ht]
        exact Template.exists_fill rfl t
      exact ⟨_, bind_eq_ok_iff.mpr ⟨encoded, hencoded, rfl⟩⟩
    | sectionStart s => cases hg
    | align alignment filler => cases hg
    | _ => exact ⟨_, rfl⟩

/-- A node that ends within the address space and the limit passes. -/
theorem checkEnd_of_le {pass : Pass} {index address : Nat} (hspace : address < addressSpace)
    (hbytes : address ≤ pass.base + pass.maxBytes) : pass.checkEnd index address = .ok () := by
  unfold checkEnd
  rw [if_neg (Nat.not_le.mpr hspace), if_neg (by omega)]

end Pass

namespace Program

section

variable (hp : p.Valid) (hcomplete : p.Complete) (hroom : p.Room base) (hallow : limits.Allow p)

include hp hcomplete hroom hallow

/-- Every pass succeeds. -/
theorem Relaxing.exists_run (hrelaxing : p.Relaxing base limits n previous)
    (hn : n < limits.maxPasses.toNat) :
    ∃ layout, (p.pass base limits previous).run p.nodeList = .ok layout := by
  cases hrun : (p.pass base limits previous).run p.nodeList with
  | ok layout => exact ⟨layout, rfl⟩
  | error e =>
    exfalso
    obtain ⟨k, node, walk, extent, hnode, htrace, -, hstep⟩ := Pass.exists_trace_of_error hrun
    have hend := htrace.stretched_add_le hp (Nat.le_refl k) hnode
    have haddress : (walk k).address ≤ (walk k).stretched := Nat.le_add_right _ _
    have habove := hroom.above
    rcases Pass.step_eq_error hstep with hextent | ⟨e', he, hgrowth | hends⟩
    · obtain ⟨e', he⟩ := Pass.exists_extent hcomplete (List.mem_of_getElem? hnode)
        (show (walk k).address + p.gapCapacity node < addressSpace by omega)
      cases hextent.symm.trans he
    · -- only an underestimate lets a node get longer, and there is none at this base
      obtain ⟨hdiv, -⟩ := Pass.checkGrowth_error hgrowth
      obtain ⟨layout, index, w, -, hunder⟩ :=
        (Pass.run_diverges_iff hrelaxing hn hp).mp ⟨e, hrun, hdiv⟩
      exact absurd (hunder.base_lt hp) (Nat.not_lt.mpr hroom.below)
    · -- the end stays below what the whole program could need
      obtain ⟨hspan, -⟩ := Pass.span_le_of_extent hp hnode rfl he
      have hlength : e'.length ≤ e'.span := Nat.le_add_right _ _
      have hbytes := hallow.bytes
      have hbase : (p.pass base limits previous).base = base.toNat := rfl
      have hmax : (p.pass base limits previous).maxBytes = limits.maxOutputBytes.toNat := rfl
      rw [Pass.checkEnd_of_le (by omega) (by omega)] at hends
      cases hends

/-- Relaxation settles. -/
theorem exists_settled : ∃ n previous layout, p.Relaxing base limits n previous ∧
    (p.pass base limits previous).run p.nodeList = .ok layout ∧
      p.relax base limits = (.ok layout, n + 1) := by
  have houtcome := p.relax_outcome base limits
  generalize p.relax base limits = outcome at houtcome ⊢
  cases houtcome with
  | exhausted hrelaxing =>
    have hfew := hrelaxing.le_jumps
    have hmany := hallow.passes
    omega
  | failed hrelaxing hn hrun =>
    obtain ⟨layout, hok⟩ := hrelaxing.exists_run hp hcomplete hroom hallow hn
    cases hrun.symm.trans hok
  | settled hrelaxing hn hrun _ => exact ⟨_, _, _, hrelaxing, hrun, rfl⟩

end

end Program

end X86Asm
