import CInterface.Json.Shape
import CInterface.Value
/-!
# Values in JSON

* `Value.toJson` — a value as a document.
* `Value.ofJson?` — the value that a document is.
-/

namespace CInterface.Value

open Json (ofVariant ofInt ofFloat ofString variant?)

mutual

/-- The document of a value. -/
def toJson : Value → Json
  | int n => ofVariant "Int" (ofInt n.toInt)
  | float x => ofVariant "Float" (ofFloat x)
  | str s => ofVariant "Str" (ofString s)
  | list items => ofVariant "List" (.array (toJsonAll items))

/-- The documents of some values. -/
def toJsonAll : List Value → List Json
  | [] => []
  | v :: vs => toJson v :: toJsonAll vs

end

/-- The value that a document is. -/
def ofJson? : Nat → Json → Option Value
  | 0, _ => none
  | depth + 1, j => do
    match ← variant? j with
    | ("Int", content) => int <$> content.int64?
    | ("Float", content) => float <$> content.float?
    | ("Str", content) => str <$> content.text?
    | ("List", .array items) =>
      match depth with
      | 0 => none
      | depth + 1 => list <$> items.mapM (ofJson? depth)
    | _ => none

end CInterface.Value
