import CInterface.Aggregate
import CInterface.Macro
/-!
# Definitions

What a header defines, by category.

* `Category` — the nine kinds of definition; `Category.Content` is what one of a kind holds.
* `Definition` — a category with its content.
* `Definitions` — one view of definitions: an ordered map for each category.

A view is read and changed through `Definitions.map` and `Definitions.update`, so that no operation
has to tell the categories apart.
-/

namespace CInterface

/-- A global variable. -/
structure Variable where
  /-- The value of its initializer, if it is known. -/
  value : Option Value
  type : CType
  /-- The storage classes written before it. -/
  storage : List String

instance : BEq Variable :=
  ⟨fun a b => a.value == b.value && a.type == b.type && a.storage == b.storage⟩

/-- A function, declared or defined. -/
structure FunctionDecl where
  ret : CType
  params : List Param
  variadic : Bool
  /-- The qualifiers of the function itself, such as a calling convention. -/
  quals : Qualifiers
  /-- The storage classes written before it. -/
  storage : List String

instance : BEq FunctionDecl :=
  ⟨fun a b => a.ret == b.ret && a.params == b.params && a.variadic == b.variadic &&
    a.quals == b.quals && a.storage == b.storage⟩

namespace FunctionDecl

/-- The function of a type, which has to be that of a function. -/
def ofType? (t : CType) (storage : List String) : Except TypeError FunctionDecl := do
  let (ret, params, variadic) ← t.signature?
  return ⟨ret, params, variadic, t.outer, storage⟩

/-- The type of the function. -/
def type (f : FunctionDecl) : CType :=
  .function f.ret f.params f.variadic (Qualifiers.ofWords f.quals)

end FunctionDecl

/-! ### Categories -/

/-- The kinds of definition. -/
inductive Category where
  | macros | fnmacros | types | vars | functions | structs | unions | enums | values
  deriving DecidableEq, Repr

namespace Category

/-- Every category, in the order of listings. -/
def all : List Category :=
  [macros, fnmacros, types, vars, functions, structs, unions, enums, values]

/-- No category is missing from `all`. -/
theorem mem_all (c : Category) : c ∈ all := by cases c <;> decide

/-- The name of a category. -/
def name : Category → String
  | macros => "macros"
  | fnmacros => "fnmacros"
  | types => "types"
  | vars => "variables"
  | functions => "functions"
  | structs => "structs"
  | unions => "unions"
  | enums => "enums"
  | values => "values"

/-- The category with a name. -/
def ofName? (name : String) : Option Category := all.find? (·.name = name)

/-- What a definition of a category holds; an object macro is its text. -/
@[reducible] def Content : Category → Type
  | macros => String
  | fnmacros => FnMacro
  | types => CType
  | vars => Variable
  | functions => FunctionDecl
  | structs => Compound
  | unions => Compound
  | enums => EnumDef
  | values => Value

/-- Equality of what two definitions of a category hold. -/
def same : (c : Category) → c.Content → c.Content → Bool
  | macros => fun a b => a == b
  | fnmacros => fun a b => a == b
  | types => fun a b => a == b
  | vars => fun a b => a == b
  | functions => fun a b => a == b
  | structs => fun a b => a == b
  | unions => fun a b => a == b
  | enums => fun a b => a == b
  | values => fun a b => a == b

end Category

/-- A definition: its category and what it holds. -/
structure Definition where
  category : Category
  content : category.Content

/-- Equality of definitions: of one category, and holding the same. -/
def Definition.same (a b : Definition) : Bool :=
  if h : b.category = a.category then a.category.same a.content (h ▸ b.content) else false

instance : BEq Definition := ⟨Definition.same⟩

/-! ### Views -/

/-- Definitions by category and name, in the order in which the names were first defined. -/
structure Definitions where
  macros : OrderedMap String := .empty
  fnmacros : OrderedMap FnMacro := .empty
  types : OrderedMap CType := .empty
  vars : OrderedMap Variable := .empty
  functions : OrderedMap FunctionDecl := .empty
  structs : OrderedMap Compound := .empty
  unions : OrderedMap Compound := .empty
  enums : OrderedMap EnumDef := .empty
  values : OrderedMap Value := .empty

namespace Definitions

/-- The view without definitions. -/
def empty : Definitions := {}

instance : Inhabited Definitions := ⟨empty⟩

/-- The definitions of a category. -/
def map (d : Definitions) : (c : Category) → OrderedMap c.Content
  | .macros => d.macros
  | .fnmacros => d.fnmacros
  | .types => d.types
  | .vars => d.vars
  | .functions => d.functions
  | .structs => d.structs
  | .unions => d.unions
  | .enums => d.enums
  | .values => d.values

/-- The view with the definitions of a category replaced. -/
def set (d : Definitions) : (c : Category) → OrderedMap c.Content → Definitions
  | .macros, m => { d with macros := m }
  | .fnmacros, m => { d with fnmacros := m }
  | .types, m => { d with types := m }
  | .vars, m => { d with vars := m }
  | .functions, m => { d with functions := m }
  | .structs, m => { d with structs := m }
  | .unions, m => { d with unions := m }
  | .enums, m => { d with enums := m }
  | .values, m => { d with values := m }

/-- The view with the definitions of a category changed. -/
def update (d : Definitions) (c : Category) (f : OrderedMap c.Content → OrderedMap c.Content) :
    Definitions :=
  d.set c (f (d.map c))

@[simp] theorem map_set_self (d : Definitions) (c : Category) (m : OrderedMap c.Content) :
    (d.set c m).map c = m := by
  cases c <;> rfl

theorem map_set_of_ne (d : Definitions) {c e : Category} (h : e ≠ c)
    (m : OrderedMap c.Content) : (d.set c m).map e = d.map e := by
  cases c <;> cases e <;> first | rfl | exact absurd rfl h

/-- Two views with the same definitions in every category are equal. -/
theorem ext_map {a b : Definitions} (h : ∀ c, a.map c = b.map c) : a = b := by
  obtain ⟨⟩ := a
  obtain ⟨⟩ := b
  simp only [mk.injEq]
  exact ⟨h .macros, h .fnmacros, h .types, h .vars, h .functions, h .structs, h .unions,
    h .enums, h .values⟩

/-- The view with a definition of a name, which takes the place of an earlier one. -/
def insert (d : Definitions) (name : String) (x : Definition) : Definitions :=
  d.update x.category (·.insert name x.content)

/-- The view without the definition of a name in a category. -/
def erase (d : Definitions) (c : Category) (name : String) : Definitions :=
  d.update c (·.erase name)

/-- The definition of a name in a category. -/
def get? (d : Definitions) (c : Category) (name : String) : Option Definition :=
  ((d.map c).get? name).map (⟨c, ·⟩)

/-- The name is defined in a category. -/
def contains (d : Definitions) (c : Category) (name : String) : Bool := (d.map c).contains name

/-- The names defined in a category, in order. -/
def names (d : Definitions) (c : Category) : List String := (d.map c).keys

/-- The name is defined in some category. -/
def defines (d : Definitions) (name : String) : Bool := Category.all.any (d.contains · name)

/-- The number of definitions. -/
def size (d : Definitions) : Nat := Category.all.foldl (fun n c => n + (d.map c).size) 0

/-- There are no definitions. -/
def isEmpty (d : Definitions) : Bool := d.size = 0

/-- The view with the definitions of another, which take the place of its own. -/
def merge (d other : Definitions) : Definitions :=
  Category.all.foldl (fun d c => d.update c (·.insertAll (other.map c))) d

/-- Both views hold the same definitions; their order does not matter. -/
def same (a b : Definitions) : Bool :=
  Category.all.all fun c => (a.map c).same c.same (b.map c)

instance : BEq Definitions := ⟨same⟩

end Definitions

end CInterface
