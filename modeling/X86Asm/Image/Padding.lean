import X86Asm.Mode
import X86Asm.Node

/-!
# Padding

The bytes that fill a gap in code do nothing when they run. Long gaps are filled with long
instructions, which take less time than many short ones.
-/

namespace X86Asm

/-- An instruction of so many bytes that does nothing, for one to nine bytes: a `nop` whose operand
is made longer and longer. -/
def longNop : (length : Nat) → List UInt8
  | 1 => [0x90]
  | 2 => [0x66, 0x90]
  | 3 => [0x0F, 0x1F, 0x00]
  | 4 => [0x0F, 0x1F, 0x40, 0x00]
  | 5 => [0x0F, 0x1F, 0x44, 0x00, 0x00]
  | 6 => [0x66, 0x0F, 0x1F, 0x44, 0x00, 0x00]
  | 7 => [0x0F, 0x1F, 0x80, 0x00, 0x00, 0x00, 0x00]
  | 8 => [0x0F, 0x1F, 0x84, 0x00, 0x00, 0x00, 0x00, 0x00]
  | 9 => [0x66, 0x0F, 0x1F, 0x84, 0x00, 0x00, 0x00, 0x00, 0x00]
  | _ => []

/-- Instructions of `n` bytes in all that do nothing. The long ones mean something else in real
mode, which makes do with the shortest. -/
def codePadding (mode : Mode) (n : Nat) : List UInt8 :=
  if mode.isReal then List.replicate n 0x90
  else (List.replicate (n / 9) (longNop 9)).flatten ++ longNop (n % 9)

/-- What fills a gap of `n` bytes. -/
def Filler.bytes (mode : Mode) (n : Nat) : Filler → List UInt8
  | code => codePadding mode n
  | byte value => List.replicate n value

/-- Code padding is as long as the gap. -/
theorem length_codePadding (mode : Mode) (n : Nat) : (codePadding mode n).length = n := by
  have short : ∀ k, k < 9 → (longNop k).length = k := by decide
  have nine : (longNop 9).length = 9 := rfl
  unfold codePadding
  split
  · simp
  · simp only [List.length_append, List.length_flatten, List.map_replicate, nine,
      List.sum_replicate_nat, short _ (Nat.mod_lt n (by decide : 0 < 9))]
    omega

/-- Any filler is as long as the gap. -/
theorem Filler.length_bytes (mode : Mode) (n : Nat) (f : Filler) : (f.bytes mode n).length = n := by
  cases f <;> simp [bytes, length_codePadding]

end X86Asm
