import X86Asm.Interchange.Machine
import X86Asm.Node

/-!
# JSON forms of instructions and nodes

Payloads are arrays of their bytes; whether they are kept inline follows from their number.
-/

namespace X86Asm

instance : JsonForm MemoryOperand where
  toJson m :=
    .record [("base", toJson m.base), ("index", toJson m.index), ("scale", toJson m.scale),
      ("disp", toJson m.disp), ("label", toJson m.label)]
  ofJson? j := do
    match ← j.fields? ["base", "index", "scale", "disp", "label"] with
    | [base, index, scale, disp, label] =>
      return {
        base := ← Json.optional? base
        index := ← Json.optional? index
        scale := ← Json.required? scale
        disp := ← Json.required? disp
        label := ← Json.optional? label }
    | _ => none

instance : JsonForm Operand where
  toJson
    | .register r => .tagged "Register" (toJson r)
    | .immediate v => .tagged "Immediate" (toJson v)
    | .memory m => .tagged "Memory" (toJson m)
    | .label l => .tagged "Label" (toJson l)
  ofJson? j := do
    match ← j.variant? with
    | ("Register", some content) => (ofJson? content).map .register
    | ("Immediate", some content) => (ofJson? content).map .immediate
    | ("Memory", some content) => (ofJson? content).map .memory
    | ("Label", some content) => (ofJson? content).map .label
    | _ => none

instance : JsonForm Instruction where
  toJson i := .record [("mnemonic", toJson i.mnemonic), ("operands", toJson i.operands)]
  ofJson? j := do
    match ← j.fields? ["mnemonic", "operands"] with
    | [mnemonic, operands] => return ⟨← Json.required? mnemonic, ← Json.required? operands⟩
    | _ => none

instance : JsonForm Filler where
  toJson
    | .code => .plain "Code"
    | .byte value => .tagged "Fill" (toJson value)
  ofJson? j := do
    match ← j.variant? with
    | ("Code", content) => if Json.isPlain content then some .code else none
    | ("Fill", some content) => (ofJson? content).map .byte
    | _ => none

instance : JsonForm Payload where
  toJson p := toJson p.bytes
  ofJson? j := (ofJson? j).map Payload.ofList

namespace Node

/-- Reads the content of an alignment directive. -/
def alignOfJson? (j : Json) : Option Node := do
  match ← j.fields? ["alignment", "mode"] with
  | [alignment, mode] => return .align (← Json.required? alignment) (← Json.required? mode)
  | _ => none

/-- Reads the content of the address of a label. -/
def addressOfJson? (j : Json) : Option Node := do
  match ← j.fields? ["label", "size"] with
  | [l, size] => return .address (← Json.required? l) (← Json.required? size)
  | _ => none

/-- Reads the content of the difference of two labels. -/
def differenceOfJson? (j : Json) : Option Node := do
  match ← j.fields? ["label", "relative_to", "size"] with
  | [l, relativeTo, size] =>
    return .difference (← Json.required? l) (← Json.required? relativeTo) (← Json.required? size)
  | _ => none

end Node

instance : JsonForm Node where
  toJson
    | .instruction i => .tagged "Instruction" (toJson i)
    | .label l => .tagged "Label" (toJson l)
    | .sectionStart s => .tagged "Section" (toJson s)
    | .data payload => .tagged "Data" (toJson payload)
    | .align alignment filler =>
      .tagged "Align" (.record [("alignment", toJson alignment), ("mode", toJson filler)])
    | .address l size =>
      .tagged "EmbedLabel" (.record [("label", toJson l), ("size", toJson size)])
    | .difference l relativeTo width =>
      .tagged "EmbedLabelRel"
        (.record [("label", toJson l), ("relative_to", toJson relativeTo), ("size", toJson width)])
  ofJson? j := do
    match ← j.variant? with
    | ("Instruction", some content) => (ofJson? content).map .instruction
    | ("Label", some content) => (ofJson? content).map .label
    | ("Section", some content) => (ofJson? content).map .sectionStart
    | ("Data", some content) => (ofJson? content).map .data
    | ("Align", some content) => Node.alignOfJson? content
    | ("EmbedLabel", some content) => Node.addressOfJson? content
    | ("EmbedLabelRel", some content) => Node.differenceOfJson? content
    | _ => none

end X86Asm
