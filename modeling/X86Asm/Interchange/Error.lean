import X86Asm.Interchange.Machine

/-!
# JSON form of errors

An error is a variant whose content is the record of what it tells.
-/

namespace X86Asm

namespace Error

/-- The name of an error in documents. -/
def tag : Error → String
  | unresolvedLabel .. => "UnresolvedLabel"
  | alreadyBound .. => "AlreadyBound"
  | invalidMode .. => "InvalidMode"
  | invalidOperands .. => "InvalidOperands"
  | immediateOverflow .. => "ImmediateOverflow"
  | displacementOutOfRange .. => "DisplacementOutOfRange"
  | relaxationDiverged .. => "RelaxationDiverged"
  | relaxationLimit .. => "RelaxationLimit"
  | limitExceeded .. => "LimitExceeded"
  | invalidLabel .. => "InvalidLabel"
  | invalidSection .. => "InvalidSection"
  | invalidNode => "InvalidNode"
  | invalidParameter .. => "InvalidParameter"

/-- The fields of an error. -/
def fields : Error → List (String × Json)
  | unresolvedLabel id name => [("id", toJson id), ("name", toJson name)]
  | alreadyBound what id => [("what", toJson what), ("id", toJson id)]
  | invalidMode mode detail => [("mode", toJson mode), ("detail", toJson detail)]
  | invalidOperands mnemonic detail => [("mnemonic", toJson mnemonic), ("detail", toJson detail)]
  | immediateOverflow value min max =>
    [("value", toJson value), ("min", toJson min), ("max", toJson max)]
  | displacementOutOfRange label value size =>
    [("label", toJson label), ("value", toJson value), ("size", toJson size)]
  | relaxationDiverged index previous current =>
    [("index", toJson index), ("previous", toJson previous), ("current", toJson current)]
  | relaxationLimit max => [("max", toJson max)]
  | limitExceeded resource limit => [("resource", toJson resource), ("limit", toJson limit)]
  | invalidLabel id => [("id", toJson id)]
  | invalidSection id => [("id", toJson id)]
  | invalidNode => []
  | invalidParameter detail => [("detail", toJson detail)]

/-- Reads a record of one field. -/
def ofField? {α : Type} [JsonForm α] (make : α → Error) (a : String) (j : Json) :
    Option Error := do
  match ← j.fields? [a] with
  | [x] => return make (← Json.required? x)
  | _ => none

/-- Reads a record of two fields. -/
def ofFields₂? {α β : Type} [JsonForm α] [JsonForm β] (make : α → β → Error) (a b : String)
    (j : Json) : Option Error := do
  match ← j.fields? [a, b] with
  | [x, y] => return make (← Json.required? x) (← Json.required? y)
  | _ => none

/-- Reads a record of three fields. -/
def ofFields₃? {α β γ : Type} [JsonForm α] [JsonForm β] [JsonForm γ] (make : α → β → γ → Error)
    (a b c : String) (j : Json) : Option Error := do
  match ← j.fields? [a, b, c] with
  | [x, y, z] => return make (← Json.required? x) (← Json.required? y) (← Json.required? z)
  | _ => none

/-- Reads the record of a label without a place, whose name may be absent. -/
def unresolvedOfJson? (j : Json) : Option Error := do
  match ← j.fields? ["id", "name"] with
  | [id, name] => return .unresolvedLabel (← Json.required? id) (← Json.optional? name)
  | _ => none

end Error

instance : JsonForm Error where
  toJson
    | .invalidNode => .plain Error.invalidNode.tag
    | e => .tagged e.tag (.record e.fields)
  ofJson? j := do
    match ← j.variant? with
    | ("UnresolvedLabel", some content) => Error.unresolvedOfJson? content
    | ("AlreadyBound", some content) => Error.ofFields₂? .alreadyBound "what" "id" content
    | ("InvalidMode", some content) => Error.ofFields₂? .invalidMode "mode" "detail" content
    | ("InvalidOperands", some content) =>
      Error.ofFields₂? .invalidOperands "mnemonic" "detail" content
    | ("ImmediateOverflow", some content) =>
      Error.ofFields₃? .immediateOverflow "value" "min" "max" content
    | ("DisplacementOutOfRange", some content) =>
      Error.ofFields₃? .displacementOutOfRange "label" "value" "size" content
    | ("RelaxationDiverged", some content) =>
      Error.ofFields₃? .relaxationDiverged "index" "previous" "current" content
    | ("RelaxationLimit", some content) => Error.ofField? .relaxationLimit "max" content
    | ("LimitExceeded", some content) =>
      Error.ofFields₂? .limitExceeded "resource" "limit" content
    | ("InvalidLabel", some content) => Error.ofField? .invalidLabel "id" content
    | ("InvalidSection", some content) => Error.ofField? .invalidSection "id" content
    | ("InvalidNode", content) => if Json.isPlain content then some .invalidNode else none
    | ("InvalidParameter", some content) => Error.ofField? .invalidParameter "detail" content
    | _ => none

end X86Asm
