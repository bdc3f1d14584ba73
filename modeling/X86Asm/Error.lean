import X86Asm.Mode

/-!
# Errors

Why building, encoding or assembling a program fails. Every cause is a constructor that carries
what its message shows, and `Error.message` is the only place where the wording stands, together
with the details in `Error.unevenAlignment` and its neighbours.
-/

namespace X86Asm

/-- Why an operation fails. -/
inductive Error where
  /-- A label is referred to and has no place in the program. -/
  | unresolvedLabel (id : UInt32) (name : Option String)
  /-- A label or section has a place already. -/
  | alreadyBound (what : String) (id : UInt32)
  /-- An operand does not exist in the mode. -/
  | invalidMode (mode : Mode) (detail : String)
  /-- The operation does not take these operands. -/
  | invalidOperands (mnemonic : String) (detail : String)
  /-- A constant does not fit. -/
  | immediateOverflow (value min max : BitVec 128)
  /-- A value that depends on a label does not fit its field. -/
  | displacementOutOfRange (label : UInt32) (value : Int64) (size : UInt8)
  /-- A node needs more bytes than an earlier pass gave it. -/
  | relaxationDiverged (index previous current : UInt64)
  /-- The layout is not settled after the allowed number of passes. -/
  | relaxationLimit (max : UInt64)
  /-- Something exceeds a limit. -/
  | limitExceeded (resource : String) (limit : UInt64)
  /-- The label was not issued by this program. -/
  | invalidLabel (id : UInt32)
  /-- The section was not issued by this program. -/
  | invalidSection (id : UInt32)
  /-- The node is gone, or was never there. -/
  | invalidNode
  /-- A parameter is outside its domain. -/
  | invalidParameter (detail : String)
deriving DecidableEq, Repr

namespace Error

/-- Whether the error points at the layout itself rather than at the program laid out. -/
def isInternal : Error → Bool
  | relaxationDiverged .. | relaxationLimit _ => true
  | _ => false

/-- The message. -/
def message : Error → String
  | unresolvedLabel _ (some name) => "unresolved label '" ++ name ++ "'"
  | unresolvedLabel id none => "unresolved label #" ++ toString id
  | alreadyBound what id => what ++ " #" ++ toString id ++ " is already bound"
  | invalidMode mode detail => "not encodable in " ++ mode.text ++ ": " ++ detail
  | invalidOperands mnemonic detail =>
    "invalid operand combination for '" ++ mnemonic ++ "': " ++ detail
  | immediateOverflow value min max =>
    "immediate value " ++ toString value.toInt ++ " out of range [" ++ toString min.toInt ++ ".." ++
      toString max.toInt ++ "]"
  | displacementOutOfRange label value size =>
    "value " ++ toString value.toInt ++ " for label #" ++ toString label ++ " does not fit in " ++
      toString size ++ " byte(s)"
  | relaxationDiverged index previous current =>
    "internal error: node " ++ toString index ++ " grew from " ++ toString previous ++ " to " ++
      toString current ++ " bytes during relaxation"
  | relaxationLimit max =>
    "serialization exceeded maximum of " ++ toString max ++
      " relaxation passes (possible oscillation)"
  | limitExceeded resource limit =>
    "resource limit exceeded: " ++ resource ++ " (limit: " ++ toString limit ++ ")"
  | invalidLabel id => "label #" ++ toString id ++ " does not belong to this program"
  | invalidSection id => "section #" ++ toString id ++ " does not belong to this program"
  | invalidNode => "stale or foreign node handle"
  | invalidParameter detail => "invalid parameter: " ++ detail

/-- The alignment of an alignment directive is not a power of two. -/
def unevenAlignment (alignment : UInt32) : Error :=
  invalidParameter ("alignment " ++ toString alignment ++ " is not a power of two")

/-- The alignment of a section is not a power of two. -/
def unevenSectionAlignment (alignment : UInt32) : Error :=
  invalidParameter ("section alignment " ++ toString alignment ++ " is not a power of two")

/-- The address of a label is to be stored in a width that no address has. -/
def oddAddressWidth (size : UInt8) : Error :=
  invalidParameter ("embedded address width " ++ toString size ++ " is not 2, 4 or 8")

/-- An address has no multiple of the alignment above it. -/
def alignmentPastEnd (address : Nat) (alignment : UInt32) : Error :=
  invalidParameter ("aligning 0x" ++ String.ofList (Nat.toDigits 16 address) ++ " to " ++
    toString alignment ++ " overflows the address space")

/-- The node at an index ends past the last address. -/
def layoutPastEnd (index : Nat) : Error :=
  invalidParameter ("layout overflows the address space at node " ++ toString index)

/-- A kind of handle is used up. -/
def handlesExhausted (resource : String) : Error := limitExceeded resource 0xFFFFFFFF

end Error

end X86Asm
