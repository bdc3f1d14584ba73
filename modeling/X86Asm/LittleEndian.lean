/-!
# Little-endian fields

`littleEndian width value` is the field of `width` bytes that holds `value`, lowest byte first. A
negative value is held in two's complement, and what does not fit is cut off at the top.
-/

namespace X86Asm

/-- The low `width` bytes of `value`, lowest first. -/
def littleEndian : (width : Nat) → (value : Int) → List UInt8
  | 0, _ => []
  | width + 1, value => UInt8.ofInt value :: littleEndian width (value / 256)

/-- The number whose little-endian bytes are given. -/
def ofLittleEndian : List UInt8 → Nat
  | [] => 0
  | b :: bytes => b.toNat + 256 * ofLittleEndian bytes

/-- A field is as long as its width, whatever the number. -/
@[simp] theorem length_littleEndian (width : Nat) (value : Int) :
    (littleEndian width value).length = width := by
  induction width generalizing value with
  | zero => rfl
  | succ width ih => simp [littleEndian, ih]

end X86Asm
