import X86Asm.Payload

/-!
# Payloads have one form

A payload comes from one of the functions that make one (`Payload.Made`). Whichever that was, the
result is the payload that `Payload.ofList` makes of the same bytes (`Made.eq_ofList`), so its
size is the number of its bytes (`Made.size_eq`).
-/

namespace X86Asm.Payload

variable {p : Payload}

/-- The payloads that can be made. -/
inductive Made : Payload → Prop
  | empty : Made empty
  | ofList (bytes : List UInt8) : Made (ofList bytes)
  | replicate (count : Nat) (byte : UInt8) : Made (replicate count byte)
  | ofUInt8 (v : UInt8) : Made (ofUInt8 v)
  | ofUInt16 (v : UInt16) : Made (ofUInt16 v)
  | ofUInt32 (v : UInt32) : Made (ofUInt32 v)
  | ofUInt64 (v : UInt64) : Made (ofUInt64 v)

/-- Few bytes are put into the buffer also if their number is checked first. -/
theorem ofShort_eq_ofList {bytes : List UInt8} (h : bytes.length ≤ inlineCapacity) :
    ofShort bytes = ofList bytes := by
  rw [ofList, if_pos h]

/-- A repeated byte has the payload of the list in which it is repeated. -/
theorem replicate_eq_ofList (count : Nat) (byte : UInt8) :
    replicate count byte = ofList (List.replicate count byte) := by
  unfold replicate ofList
  rw [List.length_replicate]
  split
  · rw [ofShort, List.length_replicate]
    congr 1
    apply Vector.ext
    intro i hi
    by_cases hc : i < count <;> simp [hc]
  · rfl

/-- A payload is what becomes of its bytes. -/
theorem Made.exists_eq_ofList (h : p.Made) : ∃ bytes, p = Payload.ofList bytes := by
  have short (bytes : List UInt8) (hb : bytes.length ≤ inlineCapacity) :
      ∃ bytes', ofShort bytes = Payload.ofList bytes' := ⟨bytes, ofShort_eq_ofList hb⟩
  cases h with
  | empty => exact short _ (by decide)
  | ofList bytes => exact ⟨bytes, rfl⟩
  | replicate count byte => exact ⟨_, replicate_eq_ofList count byte⟩
  | ofUInt8 v => exact short _ (by simp [inlineCapacity])
  | ofUInt16 v => exact short _ (by simp [inlineCapacity])
  | ofUInt32 v => exact short _ (by simp [inlineCapacity])
  | ofUInt64 v => exact short _ (by simp [inlineCapacity])

/-- The payload of a list has the size of the list. -/
@[simp] theorem size_ofList (bytes : List UInt8) : (ofList bytes).size = bytes.length := by
  unfold ofList
  split <;> rfl

/-- A payload is the one that is made of its own bytes. -/
theorem Made.eq_ofList (h : p.Made) : p = Payload.ofList p.bytes := by
  obtain ⟨bytes, rfl⟩ := h.exists_eq_ofList
  rw [bytes_ofList]

/-- The size that a payload tells is the number of its bytes. -/
theorem Made.size_eq (h : p.Made) : p.size = p.bytes.length := by
  rw [h.eq_ofList, size_ofList, bytes_ofList]

end X86Asm.Payload
