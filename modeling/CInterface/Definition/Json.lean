import CInterface.CType.Json
import CInterface.Definition
/-!
# Definitions in JSON

* `Definition.toJson`, `Definition.ofJson?` — a definition as a document, and back.
* `Definitions.toJson`, `Definitions.ofJson?` — the same for a view of definitions.
* `Compound`, `EnumDef`, `FnMacro` have such a pair each.

A macro is kept with its template, so that what is read is used as it was written. The packing of a
compound is checked, since a document may hold any number.
-/

namespace CInterface

open Json (ofMembers ofVariant ofInt ofOption ofString ofStrings ofList ofUInt32 ofMap variant?
  record? optional? text? texts? bool? list? map? uint32?)

/-! ### Structures, unions and enumerations -/

/-- The document of a field. -/
def Field.toJson (f : Field) : Json :=
  ofMembers [("name", ofOption ofString f.name), ("ty", f.type.toJson),
    ("default", ofOption Value.toJson f.default), ("bit_width", ofOption ofUInt32 f.bits)]

/-- The field that a document is. -/
def Field.ofJson? : Nat → Json → Option Field
  | depth + 1, j => do
    let [name, some type, default, bits] ← record? ["name", "ty", "default", "bit_width"] j | none
    return ⟨← optional? text? name, ← CType.ofJson? depth type,
      ← optional? (Value.ofJson? depth) default, ← optional? uint32? bits⟩
  | _, _ => none

/-- The document of a structure or union. -/
def Compound.toJson (c : Compound) : Json :=
  ofMembers [("fields", ofList Field.toJson c.fields), ("pack", ofOption ofUInt32 c.pack)]

/-- The structure or union that a document is. -/
def Compound.ofJson? : Nat → Json → Option Compound
  | depth + 1, j => do
    let [some fields, pack] ← record? ["fields", "pack"] j | none
    (make? (← list? Field.ofJson? depth fields) (← optional? uint32? pack)).toOption
  | _, _ => none

/-- The document of an enumeration. -/
def EnumDef.toJson (d : EnumDef) : Json :=
  ofMembers [("members", ofMap (fun n => ofInt n.toInt) d.members)]

/-- The enumeration that a document is. -/
def EnumDef.ofJson? : Nat → Json → Option EnumDef
  | depth + 1, j => do
    let [some members] ← record? ["members"] j | none
    return ⟨← map? (fun _ => Json.int64?) depth members⟩
  | _, _ => none

/-! ### Macros -/

/-- The document of an object macro. -/
def Macro.toJson (content : String) : Json := ofMembers [("content", ofString content)]

/-- The object macro that a document is. -/
def Macro.ofJson? : Nat → Json → Option String
  | _ + 1, j => do
    let [some content] ← record? ["content"] j | none
    text? content
  | _, _ => none

/-- The document of a template. -/
def Template.toJson (t : Template) : Json :=
  ofMembers [("pieces", ofStrings t.pieces), ("slots", ofList (fun n : Nat => ofInt n) t.slots)]

/-- The template that a document is. -/
def Template.ofJson? : Nat → Json → Option Template
  | depth + 1, j => do
    let [some pieces, some slots] ← record? ["pieces", "slots"] j | none
    return ⟨← texts? depth pieces, ← list? (fun _ => Json.nat? UInt64.size) depth slots⟩
  | _, _ => none

/-- The document of a function macro. -/
def FnMacro.toJson (m : FnMacro) : Json :=
  ofMembers [("params", ofStrings m.params), ("variadic", .bool m.variadic),
    ("content", ofString m.content), ("template", m.template.toJson)]

/-- The function macro that a document is. -/
def FnMacro.ofJson? : Nat → Json → Option FnMacro
  | depth + 1, j => do
    let [some params, some variadic, some content, some template] ←
      record? ["params", "variadic", "content", "template"] j | none
    return ⟨← texts? depth params, ← bool? variadic, ← text? content,
      ← Template.ofJson? depth template⟩
  | _, _ => none

/-! ### Variables and functions -/

/-- The document of a variable. -/
def Variable.toJson (v : Variable) : Json :=
  ofMembers [("value", ofOption Value.toJson v.value), ("ty", v.type.toJson),
    ("storage", ofStrings v.storage)]

/-- The variable that a document is. -/
def Variable.ofJson? : Nat → Json → Option Variable
  | depth + 1, j => do
    let [value, some type, some storage] ← record? ["value", "ty", "storage"] j | none
    return ⟨← optional? (Value.ofJson? depth) value, ← CType.ofJson? depth type,
      ← texts? depth storage⟩
  | _, _ => none

/-- The document of a function. -/
def FunctionDecl.toJson (f : FunctionDecl) : Json :=
  ofMembers [("return_type", f.ret.toJson), ("sig", Param.signatureToJson f.params f.variadic),
    ("qualifiers", ofStrings f.quals), ("storage", ofStrings f.storage)]

/-- The function that a document is. -/
def FunctionDecl.ofJson? : Nat → Json → Option FunctionDecl
  | depth + 1, j => do
    let [some ret, some signature, some quals, some storage] ←
      record? ["return_type", "sig", "qualifiers", "storage"] j | none
    let (params, variadic) ← Param.signatureOfJson? depth signature
    return ⟨← CType.ofJson? depth ret, params, variadic, ← texts? depth quals,
      ← texts? depth storage⟩
  | _, _ => none

/-! ### Definitions -/

namespace Category

/-- The name of a category in a definition of its own. -/
def variantName : Category → String
  | macros => "Macro"
  | fnmacros => "FnMacro"
  | types => "Type"
  | vars => "Variable"
  | functions => "Function"
  | structs => "Struct"
  | unions => "Union"
  | enums => "Enum"
  | values => "Value"

/-- The document of what a definition holds. -/
def toJson : (c : Category) → c.Content → Json
  | macros => Macro.toJson
  | fnmacros => FnMacro.toJson
  | types => CType.toJson
  | vars => Variable.toJson
  | functions => FunctionDecl.toJson
  | structs => Compound.toJson
  | unions => Compound.toJson
  | enums => EnumDef.toJson
  | values => Value.toJson

/-- What a definition of a category holds by its document. -/
def ofJson? : (c : Category) → Nat → Json → Option c.Content
  | macros => Macro.ofJson?
  | fnmacros => FnMacro.ofJson?
  | types => CType.ofJson?
  | vars => Variable.ofJson?
  | functions => FunctionDecl.ofJson?
  | structs => Compound.ofJson?
  | unions => Compound.ofJson?
  | enums => EnumDef.ofJson?
  | values => Value.ofJson?

end Category

/-- The document of a definition. -/
def Definition.toJson (x : Definition) : Json :=
  ofVariant x.category.variantName (x.category.toJson x.content)

/-- The definition that a document is. -/
def Definition.ofJson? : Nat → Json → Option Definition
  | depth + 1, j => do
    let (name, content) ← variant? j
    let c ← Category.all.find? (·.variantName = name)
    return ⟨c, ← c.ofJson? depth content⟩
  | _, _ => none

/-- The document of a view. -/
def Definitions.toJson (d : Definitions) : Json :=
  ofMembers (Category.all.map fun c => (c.name, ofMap c.toJson (d.map c)))

/-- The view that a document is. -/
def Definitions.ofJson? : Nat → Json → Option Definitions
  | depth + 1, j => do
    let fields ← record? (Category.all.map Category.name) j
    (Category.all.zip fields).foldlM (fun d e => return d.set e.1 (← map? e.1.ofJson? depth (← e.2)))
      .empty
  | _, _ => none

end CInterface
