import Mathlib.Logic.Function.Basic
import X86Asm.Interchange.Node
import X86Asm.Proofs.LittleEndian
import X86Asm.Proofs.Payload

/-!
# Payloads in variables

Payloads that are kept in variables are made in several ways, copied, and taken out of one variable
to be put into another. The same steps can be made with plain bytes. Whatever the steps, each
variable holds the payload that `Payload.ofList` makes of the bytes (`run_eq`). So what a payload
says of itself is what is to be said of its bytes, and two payloads are the same exactly if their
bytes are, wherever they come from (`holds_run`).
-/

namespace X86Asm.Payload

variable {p : Payload} {bytes : List UInt8} {width n : Nat}

/-! ## Payloads of bytes -/

/-- The bytes are in the buffer exactly if there is room for them. -/
theorem isInline_ofList (bytes : List UInt8) :
    (ofList bytes).isInline = true ↔ bytes.length ≤ inlineCapacity := by
  unfold ofList
  split
  · exact iff_of_true rfl ‹_›
  · exact iff_of_false Bool.false_ne_true ‹_›

/-- Different bytes have different payloads. -/
theorem ofList_injective : Function.Injective ofList :=
  Function.LeftInverse.injective bytes_ofList

/-- The bytes are there if there are as many as asked for. -/
theorem exactly?_ofList (hwidth : width ≤ inlineCapacity) (bytes : List UInt8) :
    (ofList bytes).exactly? width = if bytes.length = width then some bytes else none := by
  by_cases hlength : bytes.length = width
  · subst hlength
    have hall : (ofShort bytes).exactly? bytes.length = some (ofShort bytes).bytes := if_pos rfl
    rw [← ofShort_eq_ofList hwidth, hall, bytes_ofShort bytes hwidth, if_pos rfl]
  · rw [if_neg hlength, ofList]
    split
    · exact if_neg hlength
    · rfl

/-- A payload holds a number exactly if its bytes are the field of the number. -/
theorem toNat?_ofList (hwidth : width ≤ inlineCapacity) :
    (ofList bytes).toNat? width = some n ↔ n < 256 ^ width ∧ bytes = littleEndian width n := by
  rw [toNat?, exactly?_ofList hwidth]
  constructor
  · intro h
    split at h
    · subst width
      exact ofLittleEndian_eq_iff.mp (Option.some.inj h)
    · cases h
  · rintro ⟨hlt, hbytes⟩
    have hlength : bytes.length = width := by rw [hbytes, length_littleEndian]
    subst hlength
    rw [if_pos rfl]
    exact congrArg some (ofLittleEndian_eq_iff.mpr ⟨hlt, hbytes⟩)

/-- A payload holds some bytes: everything that it says is said of them. -/
structure Holds (p : Payload) (bytes : List UInt8) : Prop where
  bytes_eq : p.bytes = bytes
  size_eq : p.size = bytes.length
  isInline_iff : p.isInline = true ↔ p.size ≤ 8
  /-- The payload is read as a number of some width exactly if the bytes are its field. -/
  toNat?_eq_some_iff : ∀ (w : Width) (n : Nat),
    p.toNat? w.bytes = some n ↔ n < 2 ^ w.bits ∧ bytes = littleEndian w.bytes n
  /-- Taking the payload gives it away and leaves the empty one. -/
  take_eq : p.take = (p, empty)

/-- The payload that is made of some bytes holds them. -/
theorem holds_ofList (bytes : List UInt8) : (ofList bytes).Holds bytes where
  bytes_eq := bytes_ofList bytes
  size_eq := size_ofList bytes
  isInline_iff := by
    rw [size_ofList]
    exact isInline_ofList bytes
  toNat?_eq_some_iff := by
    intro w n
    have hwidth : w.bytes ≤ inlineCapacity := by cases w <;> decide
    have hbound : 2 ^ w.bits = 256 ^ w.bytes := by cases w <;> rfl
    rw [toNat?_ofList hwidth, hbound]
  take_eq := rfl

/-! ## Where payloads come from -/

/-- Where a payload comes from. -/
inductive Source where
  /-- Nothing. -/
  | empty
  /-- A list of bytes. A copy of the list is as good as the list. -/
  | list (bytes : List UInt8)
  /-- A byte, repeated. -/
  | replicate (count : Nat) (byte : UInt8)
  /-- A byte. -/
  | uint8 (v : UInt8)
  /-- A 16-bit number. -/
  | uint16 (v : UInt16)
  /-- A 32-bit number. -/
  | uint32 (v : UInt32)
  /-- A 64-bit number. -/
  | uint64 (v : UInt64)
  /-- A JSON document, which may be none of a payload. -/
  | document (j : Json)

namespace Source

/-- The payload. -/
def payload? : Source → Option Payload
  | empty => some .empty
  | list bytes => some (.ofList bytes)
  | replicate count byte => some (.replicate count byte)
  | uint8 v => some (.ofUInt8 v)
  | uint16 v => some (.ofUInt16 v)
  | uint32 v => some (.ofUInt32 v)
  | uint64 v => some (.ofUInt64 v)
  | document j => ofJson? j

/-- The bytes that are given. -/
def bytes? : Source → Option (List UInt8)
  | empty => some []
  | list bytes => some bytes
  | replicate count byte => some (List.replicate count byte)
  | uint8 v => some [v]
  | uint16 v => some (littleEndian 2 v.toNat)
  | uint32 v => some (littleEndian 4 v.toNat)
  | uint64 v => some (littleEndian 8 v.toNat)
  | document j => ofJson? j

/-- Every source gives the payload that is made of its bytes. -/
theorem payload?_eq (s : Source) : s.payload? = s.bytes?.map ofList := by
  have short (width : Nat) (v : Int) (hwidth : width ≤ inlineCapacity) :
      ofShort (littleEndian width v) = ofList (littleEndian width v) :=
    ofShort_eq_ofList (by rwa [length_littleEndian])
  cases s with
  | empty => rfl
  | list bytes => rfl
  | replicate count byte => exact congrArg some (replicate_eq_ofList count byte)
  | uint8 v =>
    have hbyte : littleEndian 1 v.toNat = [v] := littleEndian_ofLittleEndian [v]
    exact congrArg some (hbyte ▸ short 1 v.toNat (by decide))
  | uint16 v => exact congrArg some (short 2 v.toNat (by decide))
  | uint32 v => exact congrArg some (short 4 v.toNat (by decide))
  | uint64 v => exact congrArg some (short 8 v.toNat (by decide))
  | document j => rfl

end Source

/-! ## Variables -/

/-- A step that changes what is in some numbered variables. -/
inductive Step where
  /-- Puts a new payload into a variable. If there is none, nothing happens. -/
  | make (target : Nat) (source : Source)
  /-- Copies what is in a variable. -/
  | copy (target source : Nat)
  /-- Takes what is in a variable out of it, and puts it into another. -/
  | take (target source : Nat)

namespace Step

/-- The payloads in the variables after a step. -/
def apply (vars : Nat → Payload) : Step → Nat → Payload
  | make x s => s.payload?.elim vars (Function.update vars x)
  | copy x y => Function.update vars x (vars y)
  | take x y => Function.update (Function.update vars y (vars y).take.2) x (vars y).take.1

/-- The same with bytes. -/
def applyBytes (vars : Nat → List UInt8) : Step → Nat → List UInt8
  | make x s => s.bytes?.elim vars (Function.update vars x)
  | copy x y => Function.update vars x (vars y)
  | take x y => Function.update (Function.update vars y []) x (vars y)

/-- A step with the payloads of some bytes leads to the payloads of the bytes after it. -/
theorem apply_comp (vars : Nat → List UInt8) (step : Step) :
    step.apply (ofList ∘ vars) = ofList ∘ step.applyBytes vars := by
  cases step with
  | make x s =>
    rw [apply, applyBytes, s.payload?_eq]
    cases s.bytes? with
    | none => rfl
    | some bytes => exact (Function.comp_update ofList vars x bytes).symm
  | copy x y => exact (Function.comp_update ofList vars x (vars y)).symm
  | take x y =>
    rw [applyBytes, Function.comp_update, Function.comp_update]
    rfl

end Step

/-- The payloads in the variables after some steps. There are none in them before. -/
def run (steps : List Step) : Nat → Payload := steps.foldl Step.apply fun _ => empty

/-- The bytes in the variables after some steps. -/
def runBytes (steps : List Step) : Nat → List UInt8 := steps.foldl Step.applyBytes fun _ => []

/-- The variables hold the payloads of the bytes. -/
theorem run_eq (steps : List Step) : run steps = ofList ∘ runBytes steps := by
  have hrun : ∀ (steps : List Step) (vars : Nat → List UInt8),
      steps.foldl Step.apply (ofList ∘ vars) = ofList ∘ steps.foldl Step.applyBytes vars := by
    intro steps
    induction steps with
    | nil => exact fun _ => rfl
    | cons step steps ih =>
      intro vars
      rw [List.foldl_cons, List.foldl_cons, step.apply_comp, ih]
  exact hrun steps fun _ => []

/-- **One form for the same bytes.** After any steps a variable holds the bytes that the same steps
with bytes put into it, and two variables hold the same payload exactly if they hold the same bytes,
whatever the steps were. -/
theorem holds_run (steps : List Step) (x : Nat) :
    (run steps x).Holds (runBytes steps x) ∧
      ∀ (steps' : List Step) (y : Nat),
        run steps x = run steps' y ↔ runBytes steps x = runBytes steps' y := by
  rw [run_eq]
  refine ⟨holds_ofList (runBytes steps x), fun steps' y => ?_⟩
  rw [run_eq]
  exact ofList_injective.eq_iff

/-- A buffer in which something is left behind the byte in use is a different payload with the same
byte. -/
example : (inline #v[7, 1, 0, 0, 0, 0, 0, 0] 1).bytes = (ofList [7]).bytes ∧
    inline #v[7, 1, 0, 0, 0, 0, 0, 0] 1 ≠ ofList [7] := by
  decide

end X86Asm.Payload
