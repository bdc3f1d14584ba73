import X86Asm.Interchange.Error
import X86Asm.Interchange.Image
import X86Asm.Interchange.Node
import X86Asm.Proofs.Interchange.Machine
import X86Asm.Proofs.Program.Validity

/-!
# Round trips

A value that is written as JSON text is read back as it was (`JsonForm.roundTrips`), for each type
that has a JSON form.

Records are read field by field. A payload is written as its bytes and made of them again, so it
comes back in the form it is kept in if one of the functions that make payloads has made it; with
it comes back the node that holds it.
-/

namespace X86Asm

/-! ## Instructions -/

/-- A register that may be missing is read back. -/
theorem optional?_register (r : Option Register) : Json.optional? (some (toJson r)) = some r :=
  Json.optional?_toJson (fun _ => (nofun : Json.string _ ≠ .null)) r

/-- A label that may be missing is read back. -/
theorem optional?_label (l : Option Label) : Json.optional? (some (toJson l)) = some l :=
  Json.optional?_toJson (fun _ => (nofun : Json.integer _ _ ≠ .null)) l

/-- A text that may be missing is read back. -/
theorem optional?_string (s : Option String) : Json.optional? (some (toJson s)) = some s :=
  Json.optional?_toJson (fun _ => (nofun : Json.string _ ≠ .null)) s

instance : LawfulJsonForm MemoryOperand where
  ofJson?_toJson m := by
    have fields : (toJson m).fields? ["base", "index", "scale", "disp", "label"]
        = some [some (toJson m.base), some (toJson m.index), some (toJson m.scale),
          some (toJson m.disp), some (toJson m.label)] :=
      Json.fields?_record _ [_, _, _, _, _] (by decide) rfl
    simp [ofJson?, fields, optional?_register, optional?_label]

instance : LawfulJsonForm Operand where
  ofJson?_toJson
    | .register r => map_ofJson?_toJson Operand.register r
    | .immediate v => map_ofJson?_toJson Operand.immediate v
    | .memory m => map_ofJson?_toJson Operand.memory m
    | .label l => map_ofJson?_toJson Operand.label l

instance : LawfulJsonForm Instruction where
  ofJson?_toJson i := by
    have fields : (toJson i).fields? ["mnemonic", "operands"]
        = some [some (toJson i.mnemonic), some (toJson i.operands)] :=
      Json.fields?_record _ [_, _] (by decide) rfl
    simp [ofJson?, fields]

/-! ## Payloads and nodes -/

instance : LawfulJsonForm Filler where
  ofJson?_toJson
    | .code => rfl
    | .byte value => map_ofJson?_toJson Filler.byte value

/-- A payload that was made is read back, kept as it was. -/
theorem ofJson?_toJson_payload {p : Payload} (h : p.Made) : ofJson? (toJson p) = some p :=
  (map_ofJson?_toJson Payload.ofList p.bytes).trans (congrArg some h.eq_ofList.symm)

namespace Node

/-- The content of an alignment is read back. -/
theorem alignOfJson?_record (alignment : UInt32) (filler : Filler) :
    alignOfJson? (.record [("alignment", toJson alignment), ("mode", toJson filler)])
      = some (.align alignment filler) := by
  have fields : (Json.record [("alignment", toJson alignment), ("mode", toJson filler)]).fields?
        ["alignment", "mode"] = some [some (toJson alignment), some (toJson filler)] :=
    Json.fields?_record _ [_, _] (by decide) rfl
  simp [alignOfJson?, fields]

/-- The content of an address of a label is read back. -/
theorem addressOfJson?_record (l : Label) (size : UInt8) :
    addressOfJson? (.record [("label", toJson l), ("size", toJson size)])
      = some (.address l size) := by
  have fields : (Json.record [("label", toJson l), ("size", toJson size)]).fields?
        ["label", "size"] = some [some (toJson l), some (toJson size)] :=
    Json.fields?_record _ [_, _] (by decide) rfl
  simp [addressOfJson?, fields]

/-- The content of a difference of labels is read back. -/
theorem differenceOfJson?_record (l relativeTo : Label) (width : Width) :
    differenceOfJson?
        (.record [("label", toJson l), ("relative_to", toJson relativeTo), ("size", toJson width)])
      = some (.difference l relativeTo width) := by
  have fields : (Json.record [("label", toJson l), ("relative_to", toJson relativeTo),
        ("size", toJson width)]).fields? ["label", "relative_to", "size"]
        = some [some (toJson l), some (toJson relativeTo), some (toJson width)] :=
    Json.fields?_record _ [_, _, _] (by decide) rfl
  simp [differenceOfJson?, fields]

end Node

/-- A node is read back if its payload was made. -/
theorem ofJson?_toJson_node {node : Node} (h : node.Made) : ofJson? (toJson node) = some node := by
  cases node with
  | instruction i => exact map_ofJson?_toJson Node.instruction i
  | label l => exact map_ofJson?_toJson Node.label l
  | sectionStart s => exact map_ofJson?_toJson Node.sectionStart s
  | data payload => exact congrArg (Option.map Node.data) (ofJson?_toJson_payload h)
  | align alignment filler => exact Node.alignOfJson?_record alignment filler
  | address l size => exact Node.addressOfJson?_record l size
  | difference l relativeTo width => exact Node.differenceOfJson?_record l relativeTo width

/-! ## Limits and tables -/

instance : LawfulJsonForm Limits where
  ofJson?_toJson l := by
    have fields : (toJson l).fields? ["max_passes", "max_output_bytes"]
        = some [some (toJson l.maxPasses), some (toJson l.maxOutputBytes)] :=
      Json.fields?_record _ [_, _] (by decide) rfl
    simp [ofJson?, fields]

instance : LawfulJsonForm PlacedSection where
  ofJson?_toJson s := by
    have fields : (toJson s).fields?
          ["section", "name", "attribs", "address", "offset", "size", "padding"]
        = some [some (toJson s.handle), some (toJson s.name), some (toJson s.flags),
          some (toJson s.address), some (toJson s.offset), some (toJson s.size),
          some (toJson s.padding)] :=
      Json.fields?_record _ [_, _, _, _, _, _, _] (by decide) rfl
    simp [ofJson?, fields]

instance : LawfulJsonForm Relocation where
  ofJson?_toJson r := by
    have fields : (toJson r).fields? ["offset", "size", "label", "kind"]
        = some [some (toJson r.offset), some (toJson r.size), some (toJson r.label),
          some (toJson r.kind)] :=
      Json.fields?_record _ [_, _, _, _] (by decide) rfl
    simp [ofJson?, fields]

/-! ## Errors -/

namespace Error

section Fields

variable {α β γ : Type} [JsonForm α] [LawfulJsonForm α] [JsonForm β] [LawfulJsonForm β]
  [JsonForm γ] [LawfulJsonForm γ]

/-- An error with one field is read back from its content. -/
theorem ofField?_record (make : α → Error) (a : String) (x : α) :
    ofField? make a (.record [(a, toJson x)]) = some (make x) := by
  have fields : (Json.record [(a, toJson x)]).fields? [a] = some [some (toJson x)] :=
    Json.fields?_record _ [_] (List.nodup_singleton a) rfl
  simp [ofField?, fields]

/-- An error with two fields is read back from its content. -/
theorem ofFields₂?_record (make : α → β → Error) (a b : String) (nodup : [a, b].Nodup) (x : α)
    (y : β) :
    ofFields₂? make a b (.record [(a, toJson x), (b, toJson y)]) = some (make x y) := by
  have fields : (Json.record [(a, toJson x), (b, toJson y)]).fields? [a, b]
      = some [some (toJson x), some (toJson y)] :=
    Json.fields?_record _ [_, _] nodup rfl
  simp [ofFields₂?, fields]

/-- An error with three fields is read back from its content. -/
theorem ofFields₃?_record (make : α → β → γ → Error) (a b c : String) (nodup : [a, b, c].Nodup)
    (x : α) (y : β) (z : γ) :
    ofFields₃? make a b c (.record [(a, toJson x), (b, toJson y), (c, toJson z)])
      = some (make x y z) := by
  have fields : (Json.record [(a, toJson x), (b, toJson y), (c, toJson z)]).fields? [a, b, c]
      = some [some (toJson x), some (toJson y), some (toJson z)] :=
    Json.fields?_record _ [_, _, _] nodup rfl
  simp [ofFields₃?, fields]

end Fields

/-- The content of an error about an unbound label is read back, also without a name. -/
theorem unresolvedOfJson?_record (id : UInt32) (name : Option String) :
    unresolvedOfJson? (.record [("id", toJson id), ("name", toJson name)])
      = some (.unresolvedLabel id name) := by
  have fields : (Json.record [("id", toJson id), ("name", toJson name)]).fields? ["id", "name"]
      = some [some (toJson id), some (toJson name)] :=
    Json.fields?_record _ [_, _] (by decide) rfl
  simp [unresolvedOfJson?, fields, optional?_string]

end Error

instance : LawfulJsonForm Error where
  ofJson?_toJson
    | .unresolvedLabel id name => Error.unresolvedOfJson?_record id name
    | .alreadyBound what id =>
      Error.ofFields₂?_record Error.alreadyBound "what" "id" (by decide) what id
    | .invalidMode mode detail =>
      Error.ofFields₂?_record Error.invalidMode "mode" "detail" (by decide) mode detail
    | .invalidOperands mnemonic detail =>
      Error.ofFields₂?_record Error.invalidOperands "mnemonic" "detail" (by decide) mnemonic detail
    | .immediateOverflow value min max =>
      Error.ofFields₃?_record Error.immediateOverflow "value" "min" "max" (by decide) value min max
    | .displacementOutOfRange label value size =>
      Error.ofFields₃?_record Error.displacementOutOfRange "label" "value" "size" (by decide)
        label value size
    | .relaxationDiverged index previous current =>
      Error.ofFields₃?_record Error.relaxationDiverged "index" "previous" "current" (by decide)
        index previous current
    | .relaxationLimit max => Error.ofField?_record Error.relaxationLimit "max" max
    | .limitExceeded resource limit =>
      Error.ofFields₂?_record Error.limitExceeded "resource" "limit" (by decide) resource limit
    | .invalidLabel id => Error.ofField?_record Error.invalidLabel "id" id
    | .invalidSection id => Error.ofField?_record Error.invalidSection "id" id
    | .invalidNode => rfl
    | .invalidParameter detail => Error.ofField?_record Error.invalidParameter "detail" detail

/-! ## Texts -/

namespace JsonForm

/-- Whether every value of a type is read back from its text. -/
def RoundTrips (α : Type) [JsonForm α] : Prop :=
  ∀ a : α, read? (write a) = some a

/-- What is read back as a value is read back as a text. -/
theorem roundTrips_of_lawful {α : Type} [JsonForm α] [LawfulJsonForm α] : RoundTrips α :=
  fun a => (read?_write a).trans (LawfulJsonForm.ofJson?_toJson a)

/-- Every value is read back from its text as it was: payloads and nodes if their bytes were made
into payloads by one of the functions that do so, and all values of the other types. -/
theorem roundTrips :
    (∀ payload : Payload, payload.Made → read? (write payload) = some payload) ∧
    (∀ node : Node, node.Made → read? (write node) = some node) ∧
    RoundTrips Mode ∧ RoundTrips Label ∧ RoundTrips Section ∧ RoundTrips Register ∧
    RoundTrips MemoryOperand ∧ RoundTrips Operand ∧ RoundTrips Condition ∧ RoundTrips Mnemonic ∧
    RoundTrips Instruction ∧ RoundTrips Width ∧ RoundTrips SectionFlags ∧ RoundTrips Filler ∧
    RoundTrips NodeId ∧ RoundTrips NameId ∧ RoundTrips Error ∧ RoundTrips FixupKind ∧
    RoundTrips Limits ∧ RoundTrips PlacedSection ∧ RoundTrips Relocation := by
  refine ⟨fun payload made => ?_, fun node made => ?_, ?_⟩
  · rw [read?_write, ofJson?_toJson_payload made]
  · rw [read?_write, ofJson?_toJson_node made]
  · exact ⟨roundTrips_of_lawful, roundTrips_of_lawful, roundTrips_of_lawful, roundTrips_of_lawful,
      roundTrips_of_lawful, roundTrips_of_lawful, roundTrips_of_lawful, roundTrips_of_lawful,
      roundTrips_of_lawful, roundTrips_of_lawful, roundTrips_of_lawful, roundTrips_of_lawful,
      roundTrips_of_lawful, roundTrips_of_lawful, roundTrips_of_lawful, roundTrips_of_lawful,
      roundTrips_of_lawful, roundTrips_of_lawful, roundTrips_of_lawful⟩

/-- One byte more than the buffer holds comes back outside of it, and no bytes come back in it. -/
theorem roundTrips_payloads :
    (Payload.ofList (List.replicate 9 0xCC)).Made ∧ (Node.data .empty).Made ∧
    read? (write (Payload.ofList (List.replicate 9 0xCC)))
      = some (Payload.boxed (List.replicate 9 0xCC)) ∧
    read? (write (Node.data .empty)) = some (Node.data .empty) := by
  have made_boxed : (Payload.ofList (List.replicate 9 0xCC)).Made := .ofList _
  have made_empty : (Node.data .empty).Made := Payload.Made.empty
  exact ⟨made_boxed, made_empty, roundTrips.1 _ made_boxed, roundTrips.2.1 _ made_empty⟩

end JsonForm

end X86Asm
