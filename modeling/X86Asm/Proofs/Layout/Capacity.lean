import Mathlib.Algebra.BigOperators.Group.List.Basic
import Mathlib.Algebra.GroupWithZero.Nat
import X86Asm.Proofs.Encoding.Length
import X86Asm.Proofs.Layout.Shrinking

/-!
# How far apart places can be

Whatever the base and the pass, the slack in front of a node is at most the capacity of the gaps in
front of it, and two places are at most as far apart as the gaps and the widest forms of the nodes
in between allow.
-/

namespace X86Asm

variable {p : Program} {base : UInt64} {limits : Limits} {previous : Option Layout}
  {walk : Nat → Walk} {extent : Nat → Extent} {node : Node} {f : Node → Nat} {i j k : Nat}

/-- The length of the longest form. -/
def Template.widest : Template → Nat
  | .fixed bytes => bytes.length
  | .labelled lead field => lead.length + field.width
  | .branch b => b.near.length + b.nearWidth

/-- How many bytes a node takes at most, gaps aside. -/
def Node.widest (mode : Mode) : Node → Nat
  | .instruction i => (i.template mode).toOption.elim 0 Template.widest
  | .data payload => payload.size
  | .address _ size => size.toNat
  | .difference _ _ width => width.bytes
  | .label _ | .sectionStart _ | .align .. => 0

namespace Program

/-- How many bytes a node could need as a gap. -/
def gapCapacity (p : Program) (node : Node) : Nat := (p.gap? node).elim 0 fun a => a.toNat - 1

/-- How many bytes the gaps could need. -/
def capacity (p : Program) : Nat := (p.nodeList.map p.gapCapacity).sum

/-- How many bytes the other nodes take at most. -/
def widest (p : Program) : Nat := (p.nodeList.map (Node.widest p.mode)).sum

/-- The sum of a quantity over the nodes in front of a place. -/
def sumTo (p : Program) (f : Node → Nat) (k : Nat) : Nat := ((p.nodeList.take k).map f).sum

/-- A sum up to the next node adds what that node has. -/
theorem sumTo_succ (hn : p.nodeList[k]? = some node) :
    p.sumTo f (k + 1) = p.sumTo f k + f node := by
  simp [sumTo, List.take_add_one, hn]

/-- A sum up to some node is at most the sum over all. -/
theorem sumTo_le (p : Program) (f : Node → Nat) (k : Nat) :
    p.sumTo f k ≤ (p.nodeList.map f).sum := by
  have hsplit : p.nodeList.map f = (p.nodeList.take k).map f ++ (p.nodeList.drop k).map f := by
    rw [← List.map_append, List.take_append_drop]
  rw [hsplit, List.sum_append]
  exact Nat.le_add_right _ _

/-- The nodes up to some node take no more bytes than all could. -/
theorem sumTo_span_le (p : Program) (k : Nat) :
    p.sumTo (fun n => n.widest p.mode + p.gapCapacity n) k ≤ p.widest + p.capacity :=
  Nat.le_trans (p.sumTo_le _ k) (Nat.le_of_eq List.sum_map_add)

end Program

/-- No form of an instruction is longer than its longest. -/
theorem Instruction.length_le_widest {mode : Mode} {instr : Instruction} {t : Template}
    (ht : instr.template mode = .ok t) (ctx : Context) : t.length ctx ≤ t.widest := by
  cases t with
  | fixed bytes => exact Nat.le_refl _
  | labelled lead field => exact Nat.le_refl _
  | branch b =>
    have := two_lt_near ht
    rw [Template.length, Template.widest]
    split <;> omega

namespace Pass

/-- The capacity of a node is what it could need as a gap, and its padding is within that. -/
theorem capacity_of_extent {pass : Pass} {w : Walk} {e : Extent}
    (hgap : ∀ a, pass.program.gap? node = some a → 0 < a.toNat)
    (he : pass.extent w node = .ok e) :
    e.capacity = pass.program.gapCapacity node ∧ e.padding ≤ e.capacity := by
  cases hg : pass.program.gap? node with
  | none =>
    obtain ⟨hpad, hcap⟩ := padding_of_not_gap hg he
    rw [hpad, hcap, Program.gapCapacity, hg, Option.elim_none]
    exact ⟨rfl, Nat.le_refl 0⟩
  | some alignment =>
    rw [extent_of_gap hg] at he
    obtain ⟨-, -, hcap, -⟩ := gapExtent_eq_ok he
    rw [Program.gapCapacity, hg, Option.elim_some]
    exact ⟨hcap, gapExtent_padding_le (hgap alignment hg) he⟩

/-- A node takes no more than its widest form, or than what it could need as a gap. -/
theorem span_le_of_extent (hp : p.Valid) (hn : p.nodeList[i]? = some node) {pass : Pass}
    (hpass : pass.program = p) {w : Walk} {e : Extent} (he : pass.extent w node = .ok e) :
    e.span ≤ node.widest p.mode + p.gapCapacity node ∧
      e.capacity - e.padding ≤ p.gapCapacity node := by
  subst hpass
  cases hg : pass.program.gap? node with
  | some alignment =>
    rw [extent_of_gap hg] at he
    have hspan := gapExtent_span (hp.gap_pos hn hg) he
    obtain ⟨-, hpad, hcap, -⟩ := gapExtent_eq_ok he
    simp only [Program.gapCapacity, hg, Option.elim_some]
    omega
  | none =>
    -- what is no gap has neither padding nor capacity
    obtain ⟨hpad, hcap⟩ := padding_of_not_gap hg he
    have hlength : e.length ≤ node.widest pass.program.mode := by
      cases node with
      | instruction instr =>
        obtain ⟨encoded, hencoded, he⟩ := bind_eq_ok_iff.mp he
        cases he
        obtain ⟨t, ht, -⟩ := Instruction.encode_eq_ok hencoded
        rw [Instruction.length_of_encode ht hencoded, Node.widest, ht]
        exact Instruction.length_le_widest ht _
      | sectionStart s => cases hg
      | align alignment filler => cases hg
      | _ =>
        cases he
        exact Nat.le_refl _
    rw [span_of_not_gap hg he, hpad, hcap]
    omega

variable (hp : p.Valid) (h : (p.pass base limits previous).Trace p.nodeList k walk extent)

include hp h

/-- Slack stays within the capacity of the gaps. -/
theorem Trace.slack_le (hi : i ≤ k) : (walk i).slack ≤ p.capacity := by
  have hsum : (walk i).slack ≤ p.sumTo p.gapCapacity i := by
    induction i with
    | zero =>
      rw [h.slack_zero]
      exact Nat.zero_le _
    | succ i ih =>
      have hprev := ih (Nat.le_of_succ_le hi)
      obtain ⟨node, hn⟩ := h.node_eq hi
      obtain ⟨-, hslack⟩ := span_le_of_extent hp hn rfl (h.extent_eq i node hi hn)
      rw [h.slack_succ hi, Program.sumTo_succ hn]
      omega
  exact Nat.le_trans hsum (p.sumTo_le _ i)

/-- Two places are not farther apart than what is in between allows. -/
theorem Trace.stretched_le_sum (hij : i ≤ j) (hj : j ≤ k) :
    (walk j).stretched + p.sumTo (fun n => n.widest p.mode + p.gapCapacity n) i ≤
      (walk i).stretched + p.sumTo (fun n => n.widest p.mode + p.gapCapacity n) j := by
  induction j with
  | zero =>
    obtain rfl := Nat.le_zero.mp hij
    exact Nat.le_refl _
  | succ j ih =>
    rcases Nat.le_or_eq_of_le_succ hij with hij | rfl
    · have hprev := ih hij (Nat.le_of_succ_le hj)
      obtain ⟨node, hn⟩ := h.node_eq hj
      obtain ⟨hspan, -⟩ := span_le_of_extent hp hn rfl (h.extent_eq j node hj hn)
      rw [h.stretched_succ hj, Program.sumTo_succ hn]
      omega
    · exact Nat.le_refl _

/-- A pass that comes to a node has room for it in front of the end that the whole program can
have. -/
theorem Trace.stretched_add_le (hi : i ≤ k) (hn : p.nodeList[i]? = some node) :
    (walk i).stretched + (node.widest p.mode + p.gapCapacity node) ≤
      base.toNat + (p.widest + p.capacity) := by
  have hfront := h.stretched_le_sum hp (Nat.zero_le i) hi
  have htotal := p.sumTo_span_le (i + 1)
  rw [Program.sumTo_succ hn] at htotal
  rw [h.stretched_zero, show p.sumTo _ 0 = 0 from rfl] at hfront
  have hbase : (p.pass base limits previous).base = base.toNat := rfl
  omega

/-- No node is farther from the base than all nodes could be wide. -/
theorem Trace.stretched_le_end (hi : i ≤ k) :
    (walk i).stretched ≤ base.toNat + (p.widest + p.capacity) := by
  have hfront := h.stretched_le_sum hp (Nat.zero_le i) hi
  have htotal := p.sumTo_span_le i
  rw [h.stretched_zero, show p.sumTo _ 0 = 0 from rfl] at hfront
  have hbase : (p.pass base limits previous).base = base.toNat := rfl
  omega

end Pass

end X86Asm
