/-!
# Section flags

The attributes of a section as a set of bits: bit 0 code, bit 1 initialised data, bit 2 readable,
bit 3 writable, bit 4 executable. Further bits may be set and mean nothing here.
-/

namespace X86Asm

/-- Attributes of a section. -/
structure SectionFlags where
  /-- The flags as bits. -/
  bits : UInt32
deriving DecidableEq, Repr

namespace SectionFlags

/-- No attribute. -/
def none : SectionFlags := ⟨0⟩
/-- Holds code. -/
def code : SectionFlags := ⟨1⟩
/-- Holds initialised data. -/
def data : SectionFlags := ⟨2⟩
/-- May be read. -/
def read : SectionFlags := ⟨4⟩
/-- May be written. -/
def write : SectionFlags := ⟨8⟩
/-- May be executed. -/
def exec : SectionFlags := ⟨16⟩

/-- The flags set in either. -/
instance : OrOp SectionFlags where
  or a b := ⟨a.bits ||| b.bits⟩

/-- Whether every flag of `b` is set in `a`. -/
def contains (a b : SectionFlags) : Bool := a.bits &&& b.bits == b.bits

/-- Whether the section holds bytes that run: it is marked as code or as executable. -/
def isExecutable (a : SectionFlags) : Bool := a.bits &&& (code ||| exec).bits != 0

/-- The byte that fills the gap in front of the section: `int3` before bytes that run, else zero. -/
def gapByte (a : SectionFlags) : UInt8 := if a.isExecutable then 0xCC else 0

/-- The named flags with their names, in the order of their bits. -/
def named : List (SectionFlags × String) :=
  [(code, "code"), (data, "data"), (read, "read"), (write, "write"), (exec, "exec")]

/-- The names of the flags that are set, joined by bars, or `none`. -/
def text (a : SectionFlags) : String :=
  match named.filter (a.contains ·.1) with
  | [] => "none"
  | set => "|".intercalate (set.map (·.2))

end SectionFlags

end X86Asm
