import X86Asm.Proofs.Layout.Gap
import X86Asm.Proofs.Program.Validity
import X86Asm.Proofs.Workspace.Guarded

/-!
# Label tables as arrays, and alignment by masks

The labels of a program are numbered without gaps, so a label table is kept as an array with an
entry for each of them. `Program.Tabulates` relates such an array to the table; an index that the
program has for a label is one of the array (`Tabulates.entry_eq`).

The next multiple of a power of two is found by clearing the bits below it (`Guarded.alignUp_eq`).
-/

namespace X86Asm

/-! ## Tables -/

/-- The array has an entry for each label of the program, and says what the table says. -/
structure Program.Tabulates {α : Type} (p : Program) (entries : Array (Option α))
    (table : LabelTable α) : Prop where
  size_eq : entries.size = p.labels.size
  inside : ∀ l i, p.labelIndex? l = some i → entries[i]? = some (table.find? l)
  outside : ∀ l, p.labelIndex? l = none → table.find? l = none

namespace Program

variable {α β : Type} {p : Program} {entries : Array (Option α)} {table : LabelTable α}
  {l k : Label} {i : Nat}

/-- The index of a label is within the labels of the program. -/
theorem labelIndex?_lt (h : p.labelIndex? l = some i) : i < p.labels.size := by
  unfold labelIndex? at h
  split at h
  · rename_i hl
    exact Option.some.inj h ▸ hl.2
  · cases h

/-- Labels with the same index are the same. -/
theorem labelIndex?_inj (hl : p.labelIndex? l = some i) (hk : p.labelIndex? k = some i) : l = k :=
  Label.ext (index?_inj hl hk)

/-- An array without entries stands for the empty table. -/
theorem tabulates_empty (p : Program) :
    p.Tabulates (Array.replicate p.labels.size none : Array (Option α)) ∅ where
  size_eq := Array.size_replicate
  inside l i hi := by simp [labelIndex?_lt hi]
  outside l _ := LabelTable.find?_empty l

namespace Tabulates

/-- The entry at the index of a label is what the table says, and is read without a fault. -/
theorem entry_eq (h : p.Tabulates entries table) (hi : p.labelIndex? l = some i) :
    Guarded.entry entries i = .ok (table.find? l) :=
  Guarded.entry_eq (h.inside l i hi)

/-- A label of the program gets a value in the array and in the table. -/
theorem setEntry (h : p.Tabulates entries table) (hi : p.labelIndex? l = some i) (value : α) :
    ∃ entries', Guarded.setEntry entries i (some value) = .ok entries' ∧
      p.Tabulates entries' (table.insert l value) := by
  have hlt : i < entries.size := h.size_eq ▸ labelIndex?_lt hi
  refine ⟨_, Guarded.setEntry_eq hlt _, by rw [Array.size_set, h.size_eq], ?_, ?_⟩
  · intro k j hj
    rw [Array.getElem?_set, LabelTable.find?_insert]
    by_cases hk : l = k
    · subst hk
      rw [if_pos rfl, if_pos (Option.some.inj (hi.symm.trans hj))]
    · have hne : i ≠ j := fun hc => hk (labelIndex?_inj hi (hc ▸ hj))
      rw [if_neg hk, if_neg hne, h.inside k j hj]
  · intro k hk
    have hne : l ≠ k := by
      rintro rfl
      cases hk.symm.trans hi
    rw [LabelTable.find?_insert, if_neg hne, h.outside k hk]

/-- What is done to each entry is done to the table. -/
theorem map (h : p.Tabulates entries table) (f : α → β) :
    p.Tabulates (entries.map (Option.map f)) (table.map f) where
  size_eq := by rw [Array.size_map, h.size_eq]
  inside l i hi := by rw [Array.getElem?_map, h.inside l i hi, LabelTable.find?_map]; rfl
  outside l hl := by rw [LabelTable.find?_map, h.outside l hl]; rfl

end Tabulates

end Program

/-! ## Alignment -/

/-- What passes for a power of two when a section is created is one. -/
theorem Program.exists_pow_of_isPowerOfTwo {alignment : UInt32} (h : isPowerOfTwo alignment) :
    ∃ k, alignment.toNat = 2 ^ k :=
  ⟨_, of_decide_eq_true h⟩

namespace Guarded

/-- The next multiple of a power of two: the bits below it are cleared after they have been
carried. -/
def alignUp (address : Nat) (alignment : UInt32) : Guarded Nat := do
  let mask ← sub (max alignment.toNat 1) 1
  if address + mask < addressSpace then return (address + mask).ldiff mask
  else report (.alignmentPastEnd address alignment)

/-- Rounding up by a checked sum and a mask is rounding up. -/
theorem alignUp_eq {alignment : UInt32} (h : Program.isPowerOfTwo alignment) (address : Nat) :
    alignUp address alignment = embed (X86Asm.alignUp address alignment) := by
  have hpos := Program.isPowerOfTwo_pos h
  obtain ⟨k, hpow⟩ := Program.exists_pow_of_isPowerOfTwo h
  have hmask : sub (max alignment.toNat 1) 1 = .ok (alignment.toNat - 1) := by
    rw [Nat.max_eq_left hpos, sub_eq hpos]
  have hdvd := dvd_addressSpace hpow
  have hclear : (address + (alignment.toNat - 1)).ldiff (alignment.toNat - 1) =
      roundUp address alignment.toNat := by
    rw [roundUp, hpow, ldiff_mask]
  simp only [alignUp, X86Asm.alignUp, hmask, ok_bind, hclear, roundUp_lt_iff hpos hdvd]
  split <;> rfl

end Guarded

end X86Asm
