import CInterface.Definition
import CInterface.Expr
/-!
# The registry

A registry holds the definitions of a run twice: all together, and for each file those that it
gave. Definitions that come from no file are only in the first.

* `Registry.insert`, `Registry.erase` — change both.
* `Registry.union` — a registry with the definitions of another.
* `Registry.fileOf?` — the last file that defines a name.
* `Registry.env`, `Registry.isMacro` — the constants and the macros among the definitions.
-/

namespace CInterface

/-- The definitions of a run. -/
structure Registry where
  /-- All definitions. -/
  flat : Definitions := .empty
  /-- The definitions of each file, in the order in which the files first gave one. -/
  files : OrderedMap Definitions := .empty

namespace Registry

/-- The registry without definitions. -/
def empty : Registry := {}

instance : Inhabited Registry := ⟨empty⟩

instance : BEq Registry := ⟨fun a b => a.flat == b.flat && a.files == b.files⟩

/-- The definitions of a file, none if it has given none. -/
def fileView (r : Registry) (file : String) : Definitions := (r.files.get? file).getD .empty

/-- The registry with a definition of a name, given by a file or by none. -/
def insert (r : Registry) (file : Option String) (name : String) (x : Definition) : Registry :=
  { flat := r.flat.insert name x
    files := match file with
      | some f => r.files.insert f ((r.fileView f).insert name x)
      | none => r.files }

/-- The registry without the definitions of a name in a category. A file stays, even without
definitions. -/
def erase (r : Registry) (c : Category) (name : String) : Registry :=
  { flat := r.flat.erase c name
    files := r.files.mapValues (·.erase c name) }

/-- The registry with the definitions of another, which take the place of its own. -/
def union (r other : Registry) : Registry :=
  { flat := r.flat.merge other.flat
    files := other.files.entries.foldl
      (fun files e => files.insert e.1 (((files.get? e.1).getD .empty).merge e.2)) r.files }

/-- The last file, in the order in which the files came in, that defines a name. -/
def fileOf? (r : Registry) (name : String) : Option String :=
  (r.files.entries.reverse.find? fun e => e.2.defines name).map (·.1)

/-- There are no definitions. -/
def isEmpty (r : Registry) : Bool := r.flat.isEmpty

/-- The values of the constants. -/
def env (r : Registry) : Env := r.flat.values.get?

/-- The name is an object or function macro. -/
def isMacro (r : Registry) (name : String) : Bool :=
  r.flat.macros.contains name || r.flat.fnmacros.contains name

end Registry

/-- Why a registry does not answer: the name of a category is none. -/
inductive RegistryError where
  | unknownCategory (name : String)
  deriving DecidableEq, Repr

/-- The text of a registry error. -/
def RegistryError.message : RegistryError → String
  | unknownCategory name => "unknown definition category '" ++ name ++ "'"

/-- The category with a name. -/
def Category.named (name : String) : Except RegistryError Category :=
  match Category.ofName? name with
  | some c => .ok c
  | none => .error (.unknownCategory name)

end CInterface
