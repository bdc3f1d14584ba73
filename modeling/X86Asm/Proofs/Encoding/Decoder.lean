import X86Asm.Proofs.Encoding.NormalForm

/-!
# A decoder

`Instruction.decode` reads one instruction from the front of some bytes, the way the processor
does: an operand-size prefix, a REX prefix in long mode, an opcode, and what the opcode asks for.
It covers the opcodes that the encoder uses.

The address of the next instruction, from which relative fields count, is known once all fields
are read: it is as many bytes before the end of the input as there are bytes left.
-/

namespace X86Asm

namespace Decoder

/-! ## Fields -/

/-- The signed number in a field of `width` bytes, and the bytes behind it. -/
def readSigned (width : Nat) (bytes : List UInt8) : Option (Int × List UInt8) :=
  if width ≤ bytes.length then
    some ((ofLittleEndian (bytes.take width) : Int).bmod (256 ^ width), bytes.drop width)
  else none

/-- The three fields of a ModR/M or SIB byte. -/
structure Triple where
  /-- The upper two bits. -/
  high : Nat
  /-- The middle three bits. -/
  middle : Nat
  /-- The lower three bits. -/
  low : Nat

/-- The fields of a byte. -/
def Triple.ofByte (b : UInt8) : Triple := ⟨b.toNat / 64, b.toNat / 8 % 8, b.toNat % 8⟩

/-- The fields of the first byte, and the bytes behind it. -/
def readTriple : List UInt8 → Option (Triple × List UInt8)
  | [] => none
  | b :: bytes => some (.ofByte b, bytes)

/-- The register of so many bits with a number. -/
def register? (bits n : Nat) : Option Register :=
  if bits = 64 then if h : n < 16 then some (.qword ⟨n, h⟩) else none
  else if bits = 32 then if h : n < 16 then some (.dword ⟨n, h⟩) else none
  else if bits = 16 then if h : n < 8 then some (.word ⟨n, h⟩) else none
  else if h : n < 8 then some (.byte ⟨n, h⟩) else none

/-! ## Prefixes -/

/-- What stands in front of the opcode. -/
structure Prefixes where
  /-- There is an operand-size prefix. -/
  toggled : Bool
  /-- There is a REX prefix. -/
  rex : Bool := false
  /-- The operand has 64 bits. -/
  w : Bool := false
  /-- The fourth bit of the register field. -/
  r : Bool := false
  /-- The fourth bit of the index. -/
  x : Bool := false
  /-- The fourth bit of the base, or of the register in its place. -/
  b : Bool := false

/-- Whether the byte is a REX prefix in long mode. -/
def isRex (b : UInt8) : Bool := 0x40 ≤ b.toNat && b.toNat < 0x50

/-- Reads the REX prefix, if there is one. -/
def readRex (mode : Mode) (toggled : Bool) : List UInt8 → Prefixes × List UInt8
  | [] => ({ toggled }, [])
  | b :: bytes =>
    if mode.isLong && isRex b then
      let n := b.toNat
      ({ toggled, rex := true, w := n / 8 % 2 = 1, r := n / 4 % 2 = 1, x := n / 2 % 2 = 1,
         b := n % 2 = 1 }, bytes)
    else ({ toggled }, b :: bytes)

/-- Reads the prefixes. -/
def readPrefixes (mode : Mode) : List UInt8 → Prefixes × List UInt8
  | 0x66 :: bytes => readRex mode true bytes
  | bytes => readRex mode false bytes

namespace Prefixes

/-- The operand size where 64 bits have to be asked for. -/
def operandBits (p : Prefixes) (mode : Mode) : Nat :=
  if p.w then 64
  else if p.toggled then 48 - mode.defaultOperandBits
  else mode.defaultOperandBits

/-- The operand size of stack operations and of branches, which is 64 bits in long mode. -/
def stackBits (p : Prefixes) (mode : Mode) : Nat :=
  if mode.isLong && !p.toggled then 64 else p.operandBits mode

/-- A register of the instruction. A REX prefix takes the high bytes away. -/
def register? (p : Prefixes) (mode : Mode) (wide : Bool) (n : Nat) : Option Register :=
  if wide then Decoder.register? (p.operandBits mode) n
  else if p.rex && 4 ≤ n then none
  else Decoder.register? 8 n

/-- The place in memory with a displacement of so many bytes. -/
def readPlace (mode : Mode) (base : Option Register) (index : Option (Register × UInt8))
    (width : Nat) (bytes : List UInt8) : Option (NormalOperand × List UInt8) := do
  let (disp, bytes) ← readSigned width bytes
  return (.memory base index (disp % mode.addresses), bytes)

/-- The width of the displacement behind a base. -/
def displacementBytes (high : Nat) : Nat :=
  match high with
  | 0 => 0
  | 1 => 1
  | _ => 4

/-- The index of a SIB byte with its scale. The number of the stack pointer stands for none. -/
def readIndex (p : Prefixes) (mode : Mode) (sib : Triple) : Option (Option (Register × UInt8)) :=
  let number := sib.middle + 8 * p.x.toNat
  if number = 4 then some none
  else (Decoder.register? mode.addressBits number).map fun r => some (r, UInt8.ofNat (2 ^ sib.high))

/-- The place in memory that a SIB byte begins. -/
def readScaled (p : Prefixes) (mode : Mode) (high : Nat) (bytes : List UInt8) :
    Option (NormalOperand × List UInt8) := do
  let (sib, bytes) ← readTriple bytes
  let index ← p.readIndex mode sib
  if high = 0 && sib.low = 5 then readPlace mode none index 4 bytes
  else
    let base ← Decoder.register? mode.addressBits (sib.low + 8 * p.b.toNat)
    readPlace mode (some base) index (displacementBytes high) bytes

/-- The place in memory that a ModR/M byte stands for. -/
def readMemory (p : Prefixes) (mode : Mode) (form : Triple) (bytes : List UInt8) :
    Option (NormalOperand × List UInt8) :=
  if mode.isReal then
    if form.high = 0 && form.low = 6 then readPlace mode none none 2 bytes else none
  else if form.low = 4 then p.readScaled mode form.high bytes
  else if form.high = 0 && form.low = 5 then
    readPlace mode (if mode.isLong then some .rip else none) none 4 bytes
  else do
    let base ← Decoder.register? mode.addressBits (form.low + 8 * p.b.toNat)
    readPlace mode (some base) none (displacementBytes form.high) bytes

/-- The register or the place in memory that a ModR/M byte stands for. -/
def readOperand (p : Prefixes) (mode : Mode) (wide : Bool) (form : Triple) (bytes : List UInt8) :
    Option (NormalOperand × List UInt8) :=
  if form.high = 3 then
    (p.register? mode wide (form.low + 8 * p.b.toNat)).map fun r => (.register r, bytes)
  else p.readMemory mode form bytes

end Prefixes

/-! ## Opcodes -/

/-- What an opcode asks for. -/
inductive Opcode where
  /-- Nothing. -/
  | plain (m : Mnemonic)
  /-- A constant of two bytes. -/
  | returnDrop
  /-- Nothing, as the opcode has the number of the register. -/
  | stack (m : Mnemonic) (n : Nat)
  /-- An operand, and behind it a register. -/
  | store (m : Mnemonic) (wide : Bool)
  /-- A register, and behind it an operand. -/
  | load (m : Mnemonic) (wide : Bool)
  /-- A constant of the size of the register, whose number the opcode has. -/
  | moveWhole (wide : Bool) (n : Nat)
  /-- An operand and a constant of at most four bytes. -/
  | moveSigned
  /-- An operand and a constant, which the register field tells what to do with. -/
  | group (wide short : Bool)
  /-- An operand that holds the target of a branch. -/
  | indirect
  /-- A distance of one byte, or of the width of near branches. -/
  | branch (m : Mnemonic) (short : Bool)
  /-- Another byte of the opcode. -/
  | escape
deriving DecidableEq, Repr

/-- The arithmetic operation with a digit. -/
def aluOp? (digit : Nat) : Option AluOp :=
  [AluOp.add, .or, .and, .sub, .xor, .cmp].find? (·.digit = digit)

/-- The condition with a code. -/
def condition (code : Nat) : Condition := (Condition.all[code % 16]?).getD .overflow

/-- The opcode that a byte is. -/
def opcode? (b : UInt8) : Option Opcode :=
  let n := b.toNat
  if n = 0x90 then some (.plain .nop)
  else if n = 0xCC then some (.plain .int3)
  else if n = 0xF4 then some (.plain .hlt)
  else if n = 0xC3 then some (.plain .ret)
  else if n = 0xC2 then some .returnDrop
  else if n = 0x0F then some .escape
  else if n < 0x40 && n % 8 < 2 then
    (aluOp? (n / 8)).map fun op => .store (.alu op) (n % 2 = 1)
  else if 0x50 ≤ n && n < 0x58 then some (.stack .push (n % 8))
  else if 0x58 ≤ n && n < 0x60 then some (.stack .pop (n % 8))
  else if 0x70 ≤ n && n < 0x80 then some (.branch (.jcc (condition n)) true)
  else if n = 0x80 then some (.group false true)
  else if n = 0x81 then some (.group true false)
  else if n = 0x83 then some (.group true true)
  else if n = 0x88 || n = 0x89 then some (.store .mov (n % 2 = 1))
  else if n = 0x8A || n = 0x8B then some (.load .mov (n % 2 = 1))
  else if n = 0x8D then some (.load .lea true)
  else if 0xB0 ≤ n && n < 0xC0 then some (.moveWhole (0xB8 ≤ n) (n % 8))
  else if n = 0xC7 then some .moveSigned
  else if n = 0xE8 then some (.branch .call false)
  else if n = 0xE9 then some (.branch .jmp false)
  else if n = 0xEB then some (.branch .jmp true)
  else if n = 0xFF then some .indirect
  else none

/-- The opcode behind an escape: a near conditional jump. -/
def escaped? (b : UInt8) : Option Opcode :=
  if 0x80 ≤ b.toNat && b.toNat < 0x90 then some (.branch (.jcc (condition b.toNat)) false)
  else none

/-- A branch by a distance of so many bytes. The input ends at the address `stop`. -/
def readBranch (mode : Mode) (stop : Nat) (m : Mnemonic) (width : Nat) (bytes : List UInt8) :
    Option (NormalForm × List UInt8) := do
  let (distance, bytes) ← readSigned width bytes
  return (⟨m, [.target (((stop - bytes.length : Nat) + distance) % mode.addresses)]⟩, bytes)

/-- What an opcode asks for, except for another byte of the opcode. -/
def readOperands (mode : Mode) (stop : Nat) (p : Prefixes) (bytes : List UInt8) :
    Opcode → Option (NormalForm × List UInt8)
  | .plain m => some (⟨m, []⟩, bytes)
  | .returnDrop => do
    let (value, bytes) ← readSigned 2 bytes
    return (⟨.ret, [.immediate (value % 2 ^ 16)]⟩, bytes)
  | .stack m n => do
    let r ← register? (p.stackBits mode) (n + 8 * p.b.toNat)
    return (⟨m, [.register r]⟩, bytes)
  | .store m wide => do
    let (form, bytes) ← readTriple bytes
    let r ← p.register? mode wide (form.middle + 8 * p.r.toNat)
    let (o, bytes) ← p.readOperand mode wide form bytes
    return (⟨m, [o, .register r]⟩, bytes)
  | .load m wide => do
    let (form, bytes) ← readTriple bytes
    let r ← p.register? mode wide (form.middle + 8 * p.r.toNat)
    let (o, bytes) ← p.readOperand mode wide form bytes
    -- a register has no address
    if m = .lea && form.high = 3 then none
    else return (⟨m, [.register r, o]⟩, bytes)
  | .moveWhole wide n => do
    let r ← p.register? mode wide (n + 8 * p.b.toNat)
    let (value, bytes) ← readSigned (r.bits / 8) bytes
    return (⟨.mov, [.register r, .immediate (value % 2 ^ r.bits)]⟩, bytes)
  | .moveSigned => do
    let (form, bytes) ← readTriple bytes
    let r ← p.register? mode true (form.low + 8 * p.b.toNat)
    let (value, bytes) ← readSigned (min r.bits 32 / 8) bytes
    if form.high = 3 && form.middle = 0 then
      return (⟨.mov, [.register r, .immediate (value % 2 ^ r.bits)]⟩, bytes)
    else none
  | .group wide short => do
    let (form, bytes) ← readTriple bytes
    let r ← p.register? mode wide (form.low + 8 * p.b.toNat)
    let (value, bytes) ← readSigned (if short then 1 else min r.bits 32 / 8) bytes
    let op ← aluOp? form.middle
    if form.high = 3 then
      return (⟨.alu op, [.register r, .immediate (value % 2 ^ r.bits)]⟩, bytes)
    else none
  | .indirect => do
    let (form, bytes) ← readTriple bytes
    let r ← register? (p.stackBits mode) (form.low + 8 * p.b.toNat)
    if form.high = 3 then
      if form.middle = 4 then return (⟨.jmp, [.register r]⟩, bytes)
      else if form.middle = 2 then return (⟨.call, [.register r]⟩, bytes)
      else none
    else none
  | .branch m short =>
    readBranch mode stop m (if short then 1 else Template.nearBytes mode) bytes
  | .escape => none

/-- The opcode, of one byte or two. -/
def readOpcode : List UInt8 → Option (Opcode × List UInt8)
  | [] => none
  | b :: bytes => do
    match ← opcode? b with
    | .escape =>
      match bytes with
      | [] => none
      | b :: bytes => return (← escaped? b, bytes)
    | opcode => return (opcode, bytes)

/-- An instruction, and the bytes behind it. The input ends at the address `stop`. -/
def readInstruction (mode : Mode) (stop : Nat) (bytes : List UInt8) :
    Option (NormalForm × List UInt8) := do
  let (p, bytes) := readPrefixes mode bytes
  let (opcode, bytes) ← readOpcode bytes
  readOperands mode stop p bytes opcode

end Decoder

/-- The instruction at the front of some bytes that stand at an address, and its length. -/
def Instruction.decode (mode : Mode) (address : UInt64) (bytes : List UInt8) :
    Option (NormalForm × Nat) :=
  (Decoder.readInstruction mode (address.toNat + bytes.length) bytes).map fun (form, rest) =>
    (form, bytes.length - rest.length)

end X86Asm
