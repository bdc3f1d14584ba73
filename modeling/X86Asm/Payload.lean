import X86Asm.Hex
import X86Asm.LittleEndian

/-!
# Payloads

The raw bytes of a data node. Up to eight bytes are kept in a buffer of that size, so that the
common cases of one, two, four and eight bytes need no list of their own; longer payloads are
kept as a list. Only the length decides which, and unused bytes of the buffer are zero, so equal
byte strings have equal payloads.
-/

namespace X86Asm

/-- Raw bytes. -/
inductive Payload where
  /-- The first `used` bytes of a buffer. -/
  | inline (buffer : Vector UInt8 8) (used : Nat)
  /-- More bytes than the buffer holds. -/
  | boxed (bytes : List UInt8)
deriving DecidableEq, Repr

namespace Payload

/-- How many bytes are kept in the buffer. -/
def inlineCapacity : Nat := 8

/-- The payload of at most eight bytes, padded with zeros. -/
def ofShort (bytes : List UInt8) : Payload :=
  .inline (.ofFn fun i => bytes[i.val]?.getD 0) bytes.length

/-- No bytes. -/
def empty : Payload := .ofShort []

/-- The payload of any bytes. -/
def ofList (bytes : List UInt8) : Payload :=
  if bytes.length ≤ inlineCapacity then ofShort bytes else boxed bytes

/-- A byte repeated. -/
def replicate (count : Nat) (byte : UInt8) : Payload :=
  if count ≤ inlineCapacity then
    .inline (.ofFn fun i => if i.val < count then byte else 0) count
  else boxed (List.replicate count byte)

/-- A byte. -/
def ofUInt8 (v : UInt8) : Payload := ofShort (littleEndian 1 v.toNat)

/-- A 16-bit number. -/
def ofUInt16 (v : UInt16) : Payload := ofShort (littleEndian 2 v.toNat)

/-- A 32-bit number. -/
def ofUInt32 (v : UInt32) : Payload := ofShort (littleEndian 4 v.toNat)

/-- A 64-bit number. -/
def ofUInt64 (v : UInt64) : Payload := ofShort (littleEndian 8 v.toNat)

/-- The bytes. -/
def bytes : Payload → List UInt8
  | .inline buffer used => buffer.toList.take used
  | boxed bytes => bytes

/-- The number of bytes. -/
def size : Payload → Nat
  | .inline _ used => used
  | boxed bytes => bytes.length

/-- Whether there are no bytes. -/
def isEmpty (p : Payload) : Bool := p.size = 0

/-- Whether the bytes are kept in the buffer. -/
def isInline : Payload → Bool
  | .inline .. => true
  | boxed _ => false

/-- The bytes, if they are kept in the buffer and are so many. -/
def exactly? (width : Nat) : Payload → Option (List UInt8)
  | .inline buffer used => if used = width then some (buffer.toList.take width) else none
  | boxed _ => none

/-- The number that the bytes hold in little-endian order, if there are exactly `width` of them. -/
def toNat? (width : Nat) (p : Payload) : Option Nat := (p.exactly? width).map ofLittleEndian

/-- The payload, and the empty one that is left in its place. -/
def take (p : Payload) : Payload × Payload := (p, empty)

/-- The payload in diagnostics. -/
def describe (p : Payload) : String :=
  (if p.isInline then "Data::Inline(" else "Data::Heap(") ++ Hex.bracketed p.bytes ++ ")"

/-! ## The bytes of what is made -/

/-- The zeros behind the bytes in the buffer are not among the bytes. -/
theorem bytes_ofShort (bytes : List UInt8) (h : bytes.length ≤ inlineCapacity) :
    (ofShort bytes).bytes = bytes := by
  apply List.ext_getElem
  · simpa [ofShort, Payload.bytes] using (Nat.min_eq_left h : min _ 8 = _)
  · intro i _ hi
    simp [ofShort, Payload.bytes, hi]

/-- The payload of a list has the bytes of the list, wherever it keeps them. -/
@[simp] theorem bytes_ofList (bytes : List UInt8) : (ofList bytes).bytes = bytes := by
  unfold ofList
  split
  · exact bytes_ofShort bytes ‹_›
  · rfl

/-- A repeated byte is there as often as it was asked for. -/
@[simp] theorem bytes_replicate (count : Nat) (byte : UInt8) :
    (replicate count byte).bytes = List.replicate count byte := by
  unfold replicate
  split
  · rename_i h
    apply List.ext_getElem
    · simpa [Payload.bytes] using (Nat.min_eq_left h : min _ 8 = _)
    · intro i _ hi
      have : i < count := by simpa using hi
      simp [Payload.bytes, this]
  · rfl

end Payload

end X86Asm
