/-!
# Bytes in hexadecimal

How bytes are shown in diagnostics: two upper-case digits each, separated by commas.
-/

namespace X86Asm.Hex

/-- The upper-case digit of a number below 16. -/
def upperDigit (n : Nat) : Char :=
  if n < 10 then Char.ofNat ('0'.toNat + n) else Char.ofNat ('A'.toNat + (n - 10))

/-- A byte as two upper-case digits. -/
def upperPair (b : UInt8) : String :=
  String.ofList [upperDigit (b.toNat / 16), upperDigit (b.toNat % 16)]

/-- Bytes in brackets. -/
def bracketed (bytes : List UInt8) : String :=
  "[" ++ ", ".intercalate (bytes.map upperPair) ++ "]"

end X86Asm.Hex
