import X86Asm.Proofs.Encoding.Fields
import X86Asm.Proofs.Outcome

/-!
# Reading places in memory

The decoder gets a memory operand back from its addressing form, with the displacement that the
field stands for (`readMemory_addressing`). The forms must not be taken for each other: a base with
code 4 goes through a SIB byte, a base with code 5 has a displacement, and a SIB byte without an
index has the number of the stack pointer in its place, which is no index.
-/

namespace X86Asm

variable {mode : Mode} {m : MemoryOperand} {base index : Register} {v : Int} {reg width : Nat}

/-! ## Which operands there are -/

/-- A condition refuses nothing exactly if it holds. -/
theorem Refusal.unless_eq_ok {holds : Bool} {r : Refusal} :
    Refusal.unless holds r = .ok () ↔ holds = true := by
  cases holds <;> simp [Refusal.unless]

/-- A register that may take part in an address. -/
structure Register.Addresses (mode : Mode) (r : Register) : Prop where
  ne_rip : r ≠ .rip
  bits_eq : r.bits = mode.addressBits
  existsIn : r.existsIn mode

/-- A register that passes the check can be part of an address, unless it is `rip`. -/
theorem Register.addresses_of_check {r : Register} (h : r.checkAddress mode = .ok ())
    (hr : r ≠ .rip) : r.Addresses mode := by
  unfold checkAddress at h
  rw [if_neg hr] at h
  obtain ⟨hexists, hbits⟩ := check_bind_eq_ok_iff.mp h
  exact ⟨hr, of_decide_eq_true (Refusal.unless_eq_ok.mp hbits), Refusal.unless_eq_ok.mp hexists⟩

/-- A memory operand that exists in a mode. -/
structure MemoryOperand.Exists (mode : Mode) (m : MemoryOperand) : Prop where
  real : mode.isReal → m.base = none ∧ m.index = none
  rip : m.base = some .rip → mode.isLong ∧ m.index = none
  base : ∀ r, m.base = some r → r ≠ .rip → r.Addresses mode
  index : ∀ r, m.index = some r → r.Addresses mode ∧ r.isStackPointer = false
  scale : m.scale ∈ [1, 2, 4, 8]
  label : m.label.isSome → m.index = none ∧ (m.base = none ∨ m.base = some .rip)
  disp : m.label = none → m.dispFits mode

/-- A place that passes the check exists in the mode. -/
theorem MemoryOperand.exists_of_check (h : m.check mode = .ok ()) : m.Exists mode := by
  unfold check at h
  simp only [check_bind_eq_ok_iff, Refusal.unless_eq_ok] at h
  obtain ⟨hreal, hripLong, hripIndex, hregs, hindex, hscale, hlabel, hdisp⟩ := h
  have hregs := forM_eq_ok_iff.mp hregs
  have hrip : m.base = some .rip → mode.isLong ∧ m.index = none := by
    intro hbase
    simpa [isRipRelative, hbase] using And.intro hripLong hripIndex
  refine ⟨?_, hrip, ?_, ?_, of_decide_eq_true hscale, ?_, ?_⟩
  · intro hmode
    simpa [hmode] using hreal
  · intro r hbase hr
    exact Register.addresses_of_check (hregs r (by simp [hbase])) hr
  · intro r hr
    simp only [hr, Option.all_some, Bool.and_eq_true, Bool.not_eq_true', bne_iff_ne] at hindex
    exact ⟨Register.addresses_of_check (hregs r (by simp [hr])) hindex.2, hindex.1⟩
  · intro hl
    cases hlab : m.label with
    | none => simp [hlab] at hl
    | some l => simpa [hlab, isRipRelative] using hlabel
  · intro hl
    simpa [hl] using hdisp

/-! ## Displacements -/

/-- Two bytes hold any displacement of real mode. -/
theorem holds_two (hmode : mode.isReal) (v : Int) : Holds mode.addresses 2 v := by
  cases mode with
  | real16 => exact holds_of_dvd (by decide) v
  | _ => cases hmode

/-- Outside long mode four bytes hold any displacement, as addresses are no wider. -/
theorem holds_four (hv : mode.isLong → -0x80000000 ≤ v ∧ v ≤ 0x7FFFFFFF) :
    Holds mode.addresses 4 v := by
  cases mode with
  | long64 =>
    obtain ⟨hlow, hhigh⟩ := hv rfl
    exact holds_of_signed (by omega)
  | _ => exact holds_of_dvd (by decide) v

/-- A field of a strict context holds its value, so that nothing is lost where it is extended. -/
theorem holds_of_fieldFits {kind : FixupKind} (hwidth : width = 1 ∨ width = Template.nearBytes mode)
    (h : fieldFits mode kind width v) : Holds mode.addresses width v := by
  rcases hwidth with rfl | rfl
  · have hrange : fieldRange? mode kind 1 = some (-0x80, 0x7F) := rfl
    simp only [fieldFits, hrange, liesWithin, Bool.and_eq_true, decide_eq_true_eq] at h
    exact holds_of_signed (by omega)
  · cases mode with
    | real16 => exact holds_two rfl v
    | legacy32 => exact holds_four nofun
    | compat32 => exact holds_four nofun
    | long64 =>
      refine holds_four fun _ => ?_
      have hrange : fieldRange? .long64 kind 4 = some (-0x80000000, 0x7FFFFFFF) := rfl
      have hwidth : Template.nearBytes .long64 = 4 := rfl
      simpa [fieldFits, hwidth, hrange, liesWithin] using h

/-- A constant displacement takes a field that holds it. -/
theorem MemoryOperand.Exists.holds_disp (hm : m.Exists mode) (hlabel : m.label = none) (reg : Nat) :
    Holds mode.addresses (m.addressing mode reg).width m.disp.toInt := by
  have hfits := hm.disp hlabel
  unfold dispFits at hfits
  unfold addressing
  cases hmode : mode.isReal with
  | true => exact holds_two hmode _
  | false =>
    have hfour : Holds mode.addresses 4 m.disp.toInt :=
      holds_four fun _ => by simpa [hmode, liesWithin] using hfits
    simp only [Bool.false_eq_true, if_false]
    split
    · exact hfour
    · rename_i base _ _
      unfold Addressing.ofBase
      -- behind a base there are no bytes, one byte or four, whichever holds the displacement
      by_cases hzero : m.disp = 0 && base.code ≠ 5
      · have : m.disp = 0 := by simpa using (Bool.and_eq_true_iff.mp hzero).1
        rw [if_pos hzero, this, apply_ite Addressing.width]
        exact (ite_self 0).symm ▸ holds_of_signed (by decide)
      · rw [if_neg hzero, apply_ite Addressing.width]
        by_cases hbyte : -128 ≤ m.disp.toInt && m.disp.toInt ≤ 127
        · rw [if_pos hbyte]
          simp only [Bool.and_eq_true, decide_eq_true_eq] at hbyte
          exact (ite_self 1).symm ▸ holds_of_signed (by omega)
        · rw [if_neg hbyte]
          exact (ite_self 4).symm ▸ hfour
    · exact hfour
    · split <;> exact hfour

/-- With a label the field is as wide as that of a near branch. -/
theorem MemoryOperand.Exists.addressing_label (hm : m.Exists mode) (hlabel : m.label.isSome)
    (reg : Nat) :
    (m.addressing mode reg).width = Template.nearBytes mode ∧
      (m.addressing mode reg).kind = if m.isRipRelative then .relative else .absolute := by
  obtain ⟨hindex, hbase⟩ := hm.label hlabel
  unfold addressing isRipRelative Template.nearBytes
  cases hmode : mode.isReal with
  | true => simp [(hm.real hmode).1]
  | false =>
    rcases hbase with hbase | hbase
    · cases hlong : mode.isLong <;> simp [hbase, hindex]
    · simp [hbase]

namespace Decoder

/-- A place with a displacement is read up to the displacement, and no further. -/
theorem Prefixes.readPlace_append (base : Option Register) (index : Option (Register × UInt8))
    (hv : Holds mode.addresses width v) (rest : List UInt8) :
    readPlace mode base index width (littleEndian width v ++ rest) =
      some (.memory base index (v % mode.addresses), rest) := by
  rw [readPlace, readSigned_append]
  simp [hv.emod_eq]

/-- A register of an address is told by its number. -/
theorem register?_of_addresses {r : Register} (hr : r.Addresses mode) :
    register? mode.addressBits r.number = some r :=
  hr.bits_eq ▸ register?_number hr.ne_rip

/-- A register that is no stack pointer has another number than what stands for no index. -/
theorem number_ne_four {r : Register} (hr : r.Addresses mode) (hsp : r.isStackPointer = false) :
    r.number ≠ 4 := by
  intro h
  have hbits := hr.bits_eq
  cases r with
  | rip => exact hr.ne_rip rfl
  | word n => cases mode <;> cases hbits
  | byte n => cases mode <;> cases hbits
  | qword n | dword n =>
    obtain rfl : n = 4 := Fin.ext h
    cases hsp

/-- The two bits of a scale tell the scale. -/
theorem scale_scaleBits {scale : UInt8} (h : scale ∈ [1, 2, 4, 8]) :
    UInt8.ofNat (2 ^ scaleBits scale) = scale := by
  simp only [List.mem_cons, List.not_mem_nil, or_false] at h
  rcases h with rfl | rfl | rfl | rfl <;> rfl

/-! ## Places -/

namespace Prefixes

variable {p : Prefixes}

/-- The index is read back with its scale. -/
theorem readIndex_sib (hm : m.Exists mode) (hx : p.x = m.index.any Register.isExtended)
    (low : Nat) :
    p.readIndex mode ⟨scaleBits m.scale, (m.index.map Register.code).getD 4 % 8, low⟩ =
      some (m.index.map fun r => (r, m.scale)) := by
  unfold readIndex
  rw [hx]
  cases hi : m.index with
  | none => rfl
  | some index =>
    obtain ⟨hindex, hsp⟩ := hm.index index hi
    simp only [Option.map_some, Option.getD_some, Option.any_some, index.code_mod, index.code_add]
    rw [if_neg (number_ne_four hindex hsp), register?_of_addresses hindex, scale_scaleBits hm.scale]
    rfl

/-- The shortest displacement behind a base, which a base with code 5 cannot do without. -/
theorem ofBase_eq (reg : Nat) (base : Register) (m : MemoryOperand) :
    ∃ mod, mod < 3 ∧ (mod = 0 → base.code ≠ 5) ∧
      Addressing.ofBase reg base m =
        if m.index.isSome || base.code = 4 then
          { lead := [modRM mod reg 4, sib m.scale ((m.index.map Register.code).getD 4) base.code]
            width := displacementBytes mod }
        else { lead := [modRM mod reg base.code], width := displacementBytes mod } := by
  unfold Addressing.ofBase
  by_cases hzero : m.disp = 0 && base.code ≠ 5
  · refine ⟨0, by decide, fun _ => ?_, by rw [if_pos hzero]; rfl⟩
    simpa using (Bool.and_eq_true_iff.mp hzero).2
  · by_cases hbyte : -128 ≤ m.disp.toInt && m.disp.toInt ≤ 127
    · exact ⟨1, by decide, fun h => absurd h (by decide), by rw [if_neg hzero, if_pos hbyte]; rfl⟩
    · exact ⟨2, by decide, fun h => absurd h (by decide), by rw [if_neg hzero, if_neg hbyte]; rfl⟩

/-- A place with a base is read back through its SIB byte, or without one. -/
theorem readMemory_ofBase (hm : m.Exists mode) (hx : p.x = m.index.any Register.isExtended)
    (hb : p.b = m.base.any Register.isExtended) (hmode : mode.isReal = false)
    (hbase : m.base = some base) (hrip : base ≠ .rip) (reg : Nat)
    (hv : Holds mode.addresses (Addressing.ofBase reg base m).width v) (rest : List UInt8) :
    ∃ head tail, (Addressing.ofBase reg base m).lead = head :: tail ∧
      (Triple.ofByte head).high ≠ 3 ∧ (Triple.ofByte head).middle = reg % 8 ∧
      p.readMemory mode (.ofByte head)
        (tail ++ littleEndian (Addressing.ofBase reg base m).width v ++ rest) =
          some (m.normalForm mode v, rest) := by
  obtain ⟨mod, hmod, hfive, heq⟩ := ofBase_eq reg base m
  have haddr := hm.base base hbase hrip
  have hnumber : base.code + 8 * p.b.toNat = base.number := by
    rw [hb, hbase]
    exact base.code_add
  rw [heq] at hv ⊢
  -- so the form is not taken for one without a base
  have hnone : (mod = 0 && base.code = 5) = false := by
    rw [Bool.and_eq_false_iff, decide_eq_false_iff_not, decide_eq_false_iff_not]
    exact (Nat.eq_zero_or_pos mod).symm.imp Nat.ne_of_gt hfive
  by_cases hsib : m.index.isSome || base.code = 4
  · rw [if_pos hsib] at hv ⊢
    refine ⟨_, _, rfl, ?_⟩
    rw [ofByte_modRM (by omega)]
    refine ⟨Nat.ne_of_lt hmod, rfl, ?_⟩
    simp only [readMemory, hmode, readScaled, readTriple, List.cons_append, List.nil_append,
      ofByte_sib, Option.bind_eq_bind, Option.bind_some, readIndex_sib hm hx, base.code_mod, hnone,
      hnumber, register?_of_addresses haddr, readPlace_append _ _ hv]
    simp [MemoryOperand.normalForm, hbase]
  · rw [if_neg hsib] at hv ⊢
    rw [Bool.not_eq_true, Bool.or_eq_false_iff, Option.isSome_eq_false_iff,
      Option.isNone_iff_eq_none, decide_eq_false_iff_not] at hsib
    refine ⟨_, _, rfl, ?_⟩
    rw [ofByte_modRM (by omega)]
    refine ⟨Nat.ne_of_lt hmod, rfl, ?_⟩
    simp only [readMemory, hmode, List.nil_append, base.code_mod, hnone, hsib.2, hnumber,
      register?_of_addresses haddr, Option.bind_eq_bind, Option.bind_some,
      readPlace_append _ _ hv]
    simp [MemoryOperand.normalForm, hbase, hsib.1]

/-- A memory operand is read back from its addressing form. -/
theorem readMemory_addressing (hm : m.Exists mode) (hx : p.x = m.index.any Register.isExtended)
    (hb : p.b = m.base.any Register.isExtended) (reg : Nat)
    (hv : Holds mode.addresses (m.addressing mode reg).width v) (rest : List UInt8) :
    ∃ head tail, (m.addressing mode reg).lead = head :: tail ∧
      (Triple.ofByte head).high ≠ 3 ∧ (Triple.ofByte head).middle = reg % 8 ∧
      p.readMemory mode (.ofByte head)
        (tail ++ littleEndian (m.addressing mode reg).width v ++ rest) =
          some (m.normalForm mode v, rest) := by
  unfold MemoryOperand.addressing at hv ⊢
  cases hmode : mode.isReal with
  | true =>
    obtain ⟨hbase, hindex⟩ := hm.real hmode
    rw [hmode] at hv
    refine ⟨_, _, rfl, ?_⟩
    rw [ofByte_modRM (by decide)]
    refine ⟨by simp, rfl, ?_⟩
    have hread := readPlace_append none none hv rest
    simpa [readMemory, MemoryOperand.normalForm, hmode, hbase, hindex] using hread
  | false =>
    simp only [hmode, Bool.false_eq_true, if_false] at hv ⊢
    split at hv
    · -- relative to the instruction pointer
      rename_i hbase
      obtain ⟨hlong, hindex⟩ := hm.rip hbase
      refine ⟨_, _, rfl, ?_⟩
      rw [ofByte_modRM (by decide)]
      refine ⟨by simp, rfl, ?_⟩
      have hread := readPlace_append (some .rip) none hv rest
      simpa [readMemory, MemoryOperand.normalForm, hmode, hlong, hbase, hindex] using hread
    · rename_i base hrip hbase
      have hne : base ≠ .rip := fun hc => hrip hc
      obtain ⟨head, tail, hlead, hhigh, hmiddle, hread⟩ :=
        readMemory_ofBase hm hx hb hmode hbase hne reg hv rest
      exact ⟨head, tail, hlead, hhigh, hmiddle, hread⟩
    · -- an index alone takes the base with code 5, which stands for none
      rename_i index hbase hindex
      refine ⟨_, _, rfl, ?_⟩
      rw [ofByte_modRM (by decide)]
      refine ⟨by simp, rfl, ?_⟩
      have hread := readPlace_append none (some (index, m.scale)) hv rest
      have hscaled := readIndex_sib hm hx 5
      simp only [hindex, Option.map_some, Option.getD_some, index.code_mod] at hscaled
      simpa [readMemory, MemoryOperand.normalForm, hmode, readScaled, readTriple, ofByte_sib,
        hscaled, hbase, hindex] using hread
    · rename_i hbase hindex
      split at hv
      · -- without registers the address goes through a SIB byte in long mode
        rename_i hlong
        rw [if_pos hlong]
        refine ⟨_, _, rfl, ?_⟩
        rw [ofByte_modRM (by decide)]
        refine ⟨by simp, rfl, ?_⟩
        have hread := readPlace_append none none hv rest
        have hnone : p.readIndex mode ⟨scaleBits 1, 4, 5⟩ = some none := by
          simp [readIndex, hx, hindex]
        simpa [readMemory, MemoryOperand.normalForm, hmode, readScaled, readTriple, ofByte_sib,
          hnone, hbase, hindex] using hread
      · rename_i hlong
        rw [if_neg hlong]
        refine ⟨_, _, rfl, ?_⟩
        rw [ofByte_modRM (by decide)]
        refine ⟨by simp, rfl, ?_⟩
        have hread := readPlace_append none none hv rest
        simpa [readMemory, MemoryOperand.normalForm, hmode, hlong, hbase, hindex] using hread

end Prefixes

end Decoder

end X86Asm
