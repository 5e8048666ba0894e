import CInterface.Definition.Json
/-!
# Options of a session

The options say what is done with the headers of a session. They go into its cache blobs, to be
compared with those of the session that reads one; the grammar and the registries that a session
starts from are not among them.

* `Replacement` — a rule that edits the text of headers.
* `SessionOptions` — the options, with `SessionOptions.toJson` and `SessionOptions.ofJson?`.
-/

namespace CInterface

open Json (ofMembers ofOption ofString ofStrings ofList record? optional? text? texts? list?)

/-- A rule that edits the text of headers before they are preprocessed. -/
structure Replacement where
  /-- The header that the rule is for; without one it is for all headers. -/
  file : Option String
  /-- A regular expression. -/
  pattern : String
  /-- What takes the place of a match, with references to its groups. -/
  replacement : String
  deriving DecidableEq, Repr

/-- The rule is for a header. -/
def Replacement.appliesTo (r : Replacement) (file : String) : Bool := r.file.all (· = file)

/-- What is done with the headers of a session. -/
structure SessionOptions where
  /-- The names of the headers, in the order in which they are processed. -/
  files : List String
  replacements : List Replacement
  /-- The object macros that are defined beforehand, with their bodies. -/
  macros : List (String × String)
  /-- The definitions that are given beforehand. -/
  seeds : List (String × Definition)

instance : BEq SessionOptions :=
  ⟨fun a b => a.files == b.files && a.replacements == b.replacements && a.macros == b.macros &&
    a.seeds == b.seeds⟩

/-! ### JSON -/

/-- The document of a rule. -/
def Replacement.toJson (r : Replacement) : Json :=
  ofMembers [("file", ofOption ofString r.file), ("pattern", ofString r.pattern),
    ("replacement", ofString r.replacement)]

/-- The rule that a document is. -/
def Replacement.ofJson? : Nat → Json → Option Replacement
  | _ + 1, j => do
    let [file, some pattern, some replacement] ←
      record? ["file", "pattern", "replacement"] j | none
    return ⟨← optional? text? file, ← text? pattern, ← text? replacement⟩
  | _, _ => none

namespace Json

/-- The document of a name with what belongs to it. -/
def ofPair {α : Type} (f : α → Json) (p : String × α) : Json := array [ofString p.1, f p.2]

/-- The name and what belongs to it that a document is. -/
def pair? {α : Type} (read? : Nat → Json → Option α) : Nat → Json → Option (String × α)
  | depth + 1, array [name, item] => do return (← text? name, ← read? depth item)
  | _, _ => none

end Json

/-- The document of options. -/
def SessionOptions.toJson (o : SessionOptions) : Json :=
  ofMembers [("files", ofStrings o.files), ("replacements", ofList Replacement.toJson o.replacements),
    ("macros", ofList (Json.ofPair ofString) o.macros),
    ("seeds", ofList (Json.ofPair Definition.toJson) o.seeds)]

/-- The options that a document is. -/
def SessionOptions.ofJson? : Nat → Json → Option SessionOptions
  | depth + 1, j => do
    let [some files, some replacements, some macros, some seeds] ←
      record? ["files", "replacements", "macros", "seeds"] j | none
    return ⟨← texts? depth files, ← list? Replacement.ofJson? depth replacements,
      ← list? (Json.pair? fun _ => text?) depth macros,
      ← list? (Json.pair? Definition.ofJson?) depth seeds⟩
  | _, _ => none

end CInterface
