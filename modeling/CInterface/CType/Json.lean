import CInterface.CType
import CInterface.Value.Json
/-!
# Types in JSON

A type is a record of its base name, its layers from the base outward, and their qualifiers, of which
there is one set more, for the base.

* `CType.toJson`, `Param.signatureToJson` — types and parameter lists as documents.
* `CType.ofJson?`, `Param.signatureOfJson?` — the type and the parameter list that a document is.
* `Layer` — a layer that is not around a type yet.
-/

namespace CInterface

open Json (ofMembers ofVariant ofInt ofOption ofString ofStrings variant? record? optional? text?
  texts? bool? option?)

/-! ### Writing -/

/-- The documents of the qualifiers of all layers, from the base outward. -/
def CType.qualsToJson : CType → List Json
  | .base _ q => [ofStrings q]
  | .pointer t q | .reference t q | .array t _ q | .function t _ _ q =>
    t.qualsToJson ++ [ofStrings q]

/-- A type as a record of its base name, its layers and their qualifiers. -/
def CType.record (base : String) (layers quals : List Json) : Json :=
  ofMembers [("base", ofString base), ("declarators", .array layers), ("qualifiers", .array quals)]

/-- A parameter list as a record. -/
def Param.signature (params : List Json) (variadic : Bool) : Json :=
  ofMembers [("params", .array params), ("variadic", .bool variadic)]

mutual

/-- The documents of the layers of a type, from the base outward. -/
def CType.layersToJson : CType → List Json
  | .base _ _ => []
  | .pointer t _ => CType.layersToJson t ++ [ofString "Pointer"]
  | .reference t _ => CType.layersToJson t ++ [ofString "Reference"]
  | .array t n _ =>
    CType.layersToJson t ++ [ofVariant "Array" (ofOption (fun n => ofInt n.toNat) n)]
  | .function t params variadic _ =>
    CType.layersToJson t ++
      [ofVariant "Function" (Param.signature (Param.toJsonAll params) variadic)]

/-- The documents of some parameters. -/
def Param.toJsonAll : List Param → List Json
  | [] => []
  | ⟨name, type, default⟩ :: ps =>
    ofMembers [("name", ofOption ofString name),
      ("ty", CType.record type.baseName (CType.layersToJson type) type.qualsToJson),
      ("default", ofOption Value.toJson default)] :: Param.toJsonAll ps

end

/-- The document of a type. -/
def CType.toJson (t : CType) : Json := record t.baseName t.layersToJson t.qualsToJson

/-- The document of the parameters of a function. -/
def Param.signatureToJson (params : List Param) (variadic : Bool) : Json :=
  signature (toJsonAll params) variadic

/-! ### Reading -/

/-- A layer that is not around a type yet. -/
inductive Layer where
  | pointer
  | reference
  | array (size : Option UInt64)
  | function (params : List Param) (variadic : Bool)

/-- The type with one more layer and its qualifiers. -/
def CType.withLayer (t : CType) (l : Layer) (quals : Qualifiers) : CType :=
  match l with
  | .pointer => .pointer t quals
  | .reference => .reference t quals
  | .array n => .array t n quals
  | .function params variadic => .function t params variadic quals

/-- The type with some layers around it and the qualifiers of each. -/
def CType.withLayers (t : CType) (layers : List Layer) (quals : List Qualifiers) : CType :=
  (layers.zip quals).foldl (fun t l => t.withLayer l.1 l.2) t

mutual

/-- The type that a document is. -/
def CType.ofJson? : Nat → Json → Option CType
  | depth + 2, j => do
    let [some base, some (.array layers), some quals] ←
      record? ["base", "declarators", "qualifiers"] j | none
    let base ← text? base
    let layers ← layers.mapM (Layer.ofJson? depth)
    let q :: quals ← Json.list? texts? (depth + 1) quals | none
    if layers.length = quals.length then some ((CType.base base q).withLayers layers quals) else none
  | _, _ => none

/-- The layer that a document is. One without content may be its name alone. -/
def Layer.ofJson? : Nat → Json → Option Layer
  | _, .string inside => do
    match ← (Json.string inside).text? with
    | "Pointer" => some .pointer
    | "Reference" => some .reference
    | _ => none
  | depth + 1, j => do
    match ← variant? j with
    | ("Pointer", .null) => some .pointer
    | ("Reference", .null) => some .reference
    | ("Array", size) => .array <$> option? Json.uint64? size
    | ("Function", content) => do
      let (params, variadic) ← Param.signatureOfJson? depth content
      return .function params variadic
    | _ => none
  | _, _ => none

/-- The parameter list that a document is. -/
def Param.signatureOfJson? : Nat → Json → Option (List Param × Bool)
  | depth + 2, j => do
    let [some (.array params), some variadic] ← record? ["params", "variadic"] j | none
    return (← params.mapM (Param.ofJson? depth), ← variadic.bool?)
  | _, _ => none

/-- The parameter that a document is. -/
def Param.ofJson? : Nat → Json → Option Param
  | depth + 1, j => do
    let [name, some type, default] ← record? ["name", "ty", "default"] j | none
    return ⟨← optional? text? name, ← CType.ofJson? depth type,
      ← optional? (Value.ofJson? depth) default⟩
  | _, _ => none

end

end CInterface
