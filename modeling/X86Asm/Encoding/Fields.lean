import X86Asm.Instruction

/-!
# Prefixes, ModR/M and SIB

The small fields that instructions are made of. A register's number goes into three places: its
low three bits into a ModR/M or SIB field, and its fourth bit into the REX prefix.
-/

namespace X86Asm

/-- The operand-size prefix, present if 16 or 32 bits are wanted where the other is the default. -/
def operandSizePrefix (mode : Mode) (bits : Nat) : List UInt8 :=
  if (bits = 16 || bits = 32) && bits ≠ mode.defaultOperandBits then [0x66] else []

/-- The REX prefix, present if any of its bits is set: `w` for 64-bit operands, and `r`, `x` and
`b` for the fourth bits of the register field, the index and the base. -/
def rexPrefix (w r x b : Bool) : List UInt8 :=
  if w || r || x || b then
    [UInt8.ofNat (0x40 + 8 * w.toNat + 4 * r.toNat + 2 * x.toNat + b.toNat)]
  else []

/-- The ModR/M byte. -/
def modRM (mod reg rm : Nat) : UInt8 := UInt8.ofNat (64 * mod + 8 * (reg % 8) + rm % 8)

/-- The two bits of a scale. -/
def scaleBits (scale : UInt8) : Nat :=
  match scale with
  | 2 => 1
  | 4 => 2
  | 8 => 3
  | _ => 0

/-- The SIB byte. -/
def sib (scale : UInt8) (index base : Nat) : UInt8 :=
  UInt8.ofNat (64 * scaleBits scale + 8 * (index % 8) + base % 8)

/-- How the value of a field follows from the address of its label. -/
inductive FixupKind where
  /-- The address plus a constant. -/
  | absolute
  /-- The same, less the address of the next instruction. -/
  | relative
deriving DecidableEq, Repr

/-- The form in which a memory operand is addressed: the bytes up to its displacement, the width of
the displacement, and how a label would enter it. -/
structure Addressing where
  /-- ModR/M and, if there is one, SIB. -/
  lead : List UInt8
  /-- Width of the displacement in bytes. -/
  width : Nat
  /-- The kind of a label field in place of the displacement. -/
  kind : FixupKind := .absolute
deriving DecidableEq, Repr

/-- The addressing form of a base register: the shortest displacement that holds the constant. A
base with code 5 cannot do without one, and a base with code 4 takes a SIB byte. -/
def Addressing.ofBase (reg : Nat) (base : Register) (m : MemoryOperand) : Addressing :=
  let (mod, width) :=
    if m.disp = 0 && base.code ≠ 5 then (0, 0)
    else if -128 ≤ m.disp.toInt && m.disp.toInt ≤ 127 then (1, 1)
    else (2, 4)
  if m.index.isSome || base.code = 4 then
    let index := (m.index.map Register.code).getD 4
    { lead := [modRM mod reg 4, sib m.scale index base.code], width }
  else
    { lead := [modRM mod reg base.code], width }

/-- The addressing form of a memory operand, with `reg` in the register field. -/
def MemoryOperand.addressing (mode : Mode) (reg : Nat) (m : MemoryOperand) : Addressing :=
  if mode.isReal then { lead := [modRM 0 reg 6], width := 2 }
  else
    match m.base, m.index with
    | some .rip, _ => { lead := [modRM 0 reg 5], width := 4, kind := .relative }
    | some base, _ => .ofBase reg base m
    | none, some index => { lead := [modRM 0 reg 4, sib m.scale index.code 5], width := 4 }
    | none, none =>
      -- In long mode the short absolute form means `rip`, so the address goes through a SIB byte.
      if mode.isLong then { lead := [modRM 0 reg 4, sib 1 4 5], width := 4 }
      else { lead := [modRM 0 reg 5], width := 4 }

end X86Asm
