import X86Asm.Encoding.Buffer
import X86Asm.Error
import X86Asm.Layout.Alignment
import X86Asm.Proofs.Outcome

/-!
# Guarded computations

A guarded computation works on words of 64 bits, on arrays and on buffers of a fixed size. Where an
operation has no result there it stops with a *fault*, which no input of an assembler should ever
bring about. The errors that an assembler does report are another way to stop.

`Follows` relates a guarded computation to one on plain numbers: both succeed, or both fail with the
same error, so the guarded one has no fault.
-/

namespace X86Asm

/-- Why a guarded operation has no result. -/
inductive Fault where
  /-- A sum is no word, or a difference is negative. -/
  | arithmetic
  /-- An index or the end of a slice lies behind the end of what it is taken from. -/
  | range
  /-- A buffer for an instruction is full. -/
  | buffer (overflow : InstructionBuffer.Overflow)
deriving DecidableEq, Repr

/-- How a guarded computation stops without a result. -/
inductive Halt where
  /-- An error is reported. -/
  | error (e : Error)
  /-- An operation has no result. -/
  | fault (f : Fault)

/-- Computations with guarded operations. -/
abbrev Guarded (α : Type) := Except Halt α

namespace Guarded

variable {α β γ : Type}

@[simp] theorem ok_bind {ε : Type} (a : α) (f : α → Except ε β) : (Except.ok a >>= f) = f a := rfl

@[simp] theorem error_bind {ε : Type} (e : ε) (f : α → Except ε β) :
    (Except.error e >>= f) = .error e := rfl

/-- Reports an error. -/
def report (e : Error) : Guarded α := .error (.error e)

/-- A computation without guarded operations. -/
def embed (x : Except Error α) : Guarded α := x.mapError Halt.error

@[simp] theorem embed_ok (a : α) : embed (.ok a) = .ok a := rfl

@[simp] theorem embed_error (e : Error) : embed (.error e : Except Error α) = report e := rfl

/-- What has no guarded operations has no fault. -/
theorem embed_ne_fault (x : Except Error α) (f : Fault) : embed x ≠ .error (.fault f) := by
  cases x <;> nofun

/-- Changes the errors that are reported. -/
def mapReport (f : Error → Error) (x : Guarded α) : Guarded α :=
  x.mapError fun
    | .error e => .error (f e)
    | .fault fault => .fault fault

/-- The difference of two words. -/
def sub (a b : Nat) : Guarded Nat :=
  if b ≤ a then .ok (a - b) else .error (.fault .arithmetic)

/-- The sum of two words. -/
def add (a b : Nat) : Guarded Nat :=
  if a + b < addressSpace then .ok (a + b) else .error (.fault .arithmetic)

/-- The entry at an index. -/
def entry (xs : Array α) (i : Nat) : Guarded α :=
  if h : i < xs.size then .ok xs[i] else .error (.fault .range)

/-- Replaces the entry at an index. -/
def setEntry (xs : Array α) (i : Nat) (x : α) : Guarded (Array α) :=
  if h : i < xs.size then .ok (xs.set i x h) else .error (.fault .range)

/-- The first so many members. -/
def slice (xs : List α) (n : Nat) : Guarded (List α) :=
  if n ≤ xs.length then .ok (xs.take n) else .error (.fault .range)

/-- A difference that is not negative has no fault. -/
theorem sub_eq {a b : Nat} (h : b ≤ a) : sub a b = .ok (a - b) := if_pos h

/-- A sum that is a word has no fault. -/
theorem add_eq {a b : Nat} (h : a + b < addressSpace) : add a b = .ok (a + b) := if_pos h

/-- An index within an array has no fault. -/
theorem entry_eq {xs : Array α} {i : Nat} {x : α} (h : xs[i]? = some x) : entry xs i = .ok x := by
  obtain ⟨hi, rfl⟩ := Array.getElem?_eq_some_iff.mp h
  exact dif_pos hi

/-- Nor has writing at such an index. -/
theorem setEntry_eq {xs : Array α} {i : Nat} (h : i < xs.size) (x : α) :
    setEntry xs i x = .ok (xs.set i x h) := dif_pos h

/-- A slice that ends within a list has no fault. -/
theorem slice_eq {xs : List α} {n : Nat} (h : n ≤ xs.length) : slice xs n = .ok (xs.take n) :=
  if_pos h

/-! ## Guarded computations and plain ones -/

/-- The guarded computation has a result that is related to that of the plain one, or it reports
the error that the plain one ends with. In either case it has no fault. -/
abbrev Follows (R : α → β → Prop) : Guarded α → Except Error β → Prop :=
  Alike (fun halt e => halt = .error e) R

/-- What has no guarded operations follows itself. -/
theorem follows_embed (x : Except Error α) : Follows Eq (embed x) x := by
  cases x with
  | error e => exact .error rfl
  | ok a => exact .ok rfl

/-- Reporting an error follows the error. -/
theorem follows_report {R : α → β → Prop} (e : Error) :
    Follows R (report e) (.error e : Except Error β) := .error rfl

/-- Changing the reported error follows changing the error. -/
theorem Follows.mapReport {R : α → β → Prop} {x : Guarded α} {y : Except Error β}
    (h : Follows R x y) (f : Error → Error) : Follows R (x.mapReport f) (y.mapError f) := by
  cases h with
  | ok hR => exact .ok hR
  | error he => exact .error (he ▸ rfl)

end Guarded

end X86Asm
