import X86Asm.Image.Basic
import X86Asm.Interchange.Machine
import X86Asm.Layout.Basic

/-!
# JSON forms of limits and of the tables of an image
-/

namespace X86Asm

instance : JsonForm Limits where
  toJson l :=
    .record [("max_passes", toJson l.maxPasses), ("max_output_bytes", toJson l.maxOutputBytes)]
  ofJson? j := do
    match ← j.fields? ["max_passes", "max_output_bytes"] with
    | [passes, bytes] => return ⟨← Json.required? passes, ← Json.required? bytes⟩
    | _ => none

instance : JsonForm PlacedSection where
  toJson s :=
    .record [("section", toJson s.handle), ("name", toJson s.name), ("attribs", toJson s.flags),
      ("address", toJson s.address), ("offset", toJson s.offset), ("size", toJson s.size),
      ("padding", toJson s.padding)]
  ofJson? j := do
    match ← j.fields? ["section", "name", "attribs", "address", "offset", "size", "padding"] with
    | [handle, name, flags, address, offset, size, padding] =>
      return {
        handle := ← Json.required? handle
        name := ← Json.required? name
        flags := ← Json.required? flags
        address := ← Json.required? address
        offset := ← Json.required? offset
        size := ← Json.required? size
        padding := ← Json.required? padding }
    | _ => none

instance : JsonForm Relocation where
  toJson r :=
    .record [("offset", toJson r.offset), ("size", toJson r.size), ("label", toJson r.label),
      ("kind", toJson r.kind)]
  ofJson? j := do
    match ← j.fields? ["offset", "size", "label", "kind"] with
    | [offset, size, label, kind] =>
      return ⟨← Json.required? offset, ← Json.required? size, ← Json.required? label,
        ← Json.required? kind⟩
    | _ => none

end X86Asm
