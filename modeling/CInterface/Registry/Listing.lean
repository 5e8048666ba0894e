import CInterface.Registry
/-!
# Listings

A listing shows definitions as text, category by category, in a form close to C.

* `Definitions.listing` — the listing of a view.
* `Registry.listing` — the listing of all definitions or of one file's.
-/

namespace CInterface

/-- The line, or for aggregates the lines, of a definition. -/
def Category.entryText : (c : Category) → String → c.Content → String
  | .macros, name, content => "#define " ++ name ++ " " ++ content ++ "\n"
  | .fnmacros, name, m =>
    "#define " ++ name ++ "(" ++ ", ".intercalate m.params ++ ") " ++ m.content ++ "\n"
  | .types, name, t => name ++ ": " ++ t.render none ++ "\n"
  | .vars, name, v =>
    v.type.render (some name) ++
      (match v.value with
        | some x => " = " ++ x.text
        | none => "") ++ ";\n"
  | .functions, name, f => f.type.render (some name) ++ ";\n"
  | .structs, name, c => c.render "struct" name ++ ";\n"
  | .unions, name, c => c.render "union" name ++ ";\n"
  | .enums, name, d => d.render name ++ ";\n"
  | .values, name, v => name ++ " = " ++ v.text ++ "\n"

/-- The definitions of a category under its name, nothing if there are none. -/
def Definitions.categoryListing (d : Definitions) (c : Category) : String :=
  if (d.map c).isEmpty then ""
  else
    "// " ++ c.name ++ "\n" ++
      String.join ((d.map c).entries.map fun e => c.entryText e.1 e.2) ++ "\n"

/-- The listing of a view. -/
def Definitions.listing (d : Definitions) : String :=
  String.join (Category.all.map d.categoryListing)

/-- The listing of all definitions, or of those of a file. -/
def Registry.listing (r : Registry) : Option String → String
  | some file => ((r.files.get? file).map Definitions.listing).getD ""
  | none => r.flat.listing

end CInterface
